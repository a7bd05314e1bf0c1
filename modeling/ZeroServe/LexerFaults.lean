import ZeroServe.LexerRuns

/-! Where a run of the lexer stops with a panic: at a heredoc that ends where it begins, so that the end of its text
is in front of its last line. -/
namespace ZeroServe.Caddyfile
open CharText

section

theorem splitAtAppend (a b : Str) : splitAt (a ++ b) (strLen a) = .ok (a,b) := by
  rw [splitAt,splitBytesAppend]
  rfl

/- The inside of the variable a text begins with: it is not empty and ends at the first closing brace. -/
def variableAt : Str → Option Str
  | '{' :: '$'::tail =>
    let inside := tail.takeWhile (· ≠ '}')
    if inside ≠ [] ∧ inside.length < tail.length then some inside else none
  | _ => none

def envValue (env : Str → Option Str) (inside : Str) : Str :=
  (env (inside.takeWhile (· ≠ ':'))).getD ((inside.dropWhile (· ≠ ':')).drop 1)

def expandEnv (env : Str → Option Str) : Nat → Str → Str
  | _,[] => []
  | skip + 1,_::rest => expandEnv env skip rest
  | 0,c::rest => match variableAt (c::rest) with
    | some inside => envValue env inside ++ expandEnv env (inside.length + 2) rest
    | none => c::expandEnv env 0 rest

theorem variableOpens {s inside} (found : variableAt s = some inside) : ['{','$'] <+: s ∧ '}' ∈ s := by
  unfold variableAt at found
  split at found
  · rename_i tail
    dsimp only at found
    split at found
    · rename_i ends
      refine ⟨⟨tail,rfl⟩,.tail _ (.tail _ ?_)⟩
      by_contra absent
      rw [List.takeWhile_eq_self_iff.mpr] at ends
      · exact Nat.lt_irrefl _ ends.2
      · intro c mem
        exact decide_eq_true (fun same => absent (same ▸ mem))
    · cases found
  · cases found

theorem takeInside {k d : Str} (open_ : '}' ∉ k) : (k ++ '}'::d).takeWhile (· ≠ '}') = k := by
  rw [List.takeWhile_append_of_pos]
  · simp
  · intro c mem
    exact decide_eq_true (fun same => open_ (same ▸ mem))

theorem variableFront {k d : Str} (open_ : '}' ∉ k) :
    variableAt ('{' :: '$'::(k ++ '}'::d)) = if k = [] then none else some k := by
  simp only [variableAt]
  rw [takeInside open_]
  by_cases empty : k = []
  · simp [empty]
  · simp [empty]

variable (env : Str → Option Str)

theorem expandSkip (a d : Str) : expandEnv env a.length (a ++ d) = expandEnv env 0 d := by
  induction a with
  | nil => rfl
  | cons c a ih => exact ih

theorem expandPlain {a b} (plain : ∀ t, t <:+ a → t ≠ [] → variableAt (t ++ b) = none) :
    expandEnv env 0 (a ++ b) = a ++ expandEnv env 0 b := by
  induction a with
  | nil => rfl
  | cons c a ih =>
    have first := plain (c::a) List.suffix_rfl (List.cons_ne_nil _ _)
    rw [List.cons_append] at first ⊢
    rw [expandEnv,first]
    exact congrArg (c :: ·) (ih fun t part => plain t (part.trans (List.suffix_cons c a)))

theorem expandSame {s} (plain : ¬ ['{','$'] <:+: s ∨ '}' ∉ s) : expandEnv env 0 s = s := by
  have empty : ∀ t, t <:+ s → t ≠ [] → variableAt (t ++ []) = none := by
    intro t part _
    rw [List.append_nil]
    by_contra found
    obtain ⟨inside,is⟩ := Option.ne_none_iff_exists'.mp found
    obtain ⟨opens,closes⟩ := variableOpens is
    exact plain.elim (fun absent => absent (opens.isInfix.trans part.isInfix)) fun absent => absent (part.subset closes)
  simpa [expandEnv] using expandPlain env empty

theorem findStrAbsent {pat s} (absent : findStr pat s = none) : ¬ pat <:+: s := by
  induction s with
  | nil =>
    rw [findStr] at absent
    split at absent
    · cases absent
    · rename_i given
      exact fun inside => given (List.infix_nil.mp inside)
  | cons c s ih =>
    rw [findStr] at absent
    split at absent
    · cases absent
    · rename_i later
      rw [List.infix_cons_iff,not_or]
      exact ⟨later,ih (Option.map_eq_none_iff.mp absent)⟩

theorem findStrFirst {pat s} {n} (found : findStr pat s = some n) :
    ∃ a b, s = a ++ (pat ++ b) ∧ strLen a = n ∧ ∀ t, t <:+ a → t ≠ [] → ¬ pat <+: t ++ (pat ++ b) := by
  induction s generalizing n with
  | nil =>
    rw [findStr] at found
    split at found
    · rename_i empty
      cases found
      exact ⟨[],[],by simp [empty],rfl,fun t part present => absurd (List.suffix_nil.mp part) present⟩
    · cases found
  | cons c s ih =>
    rw [findStr] at found
    split at found
    · rename_i start
      cases found
      obtain ⟨b,same⟩ := start
      exact ⟨[],b,same.symm,rfl,fun t part present => absurd (List.suffix_nil.mp part) present⟩
    · rename_i later
      obtain ⟨m,inner,rfl⟩ := Option.map_eq_some_iff.mp found
      obtain ⟨a,b,rfl,rfl,first⟩ := ih inner
      refine ⟨c::a,b,rfl,strLenCons c a,?_⟩
      intro t part
      rcases List.suffix_cons_iff.mp part with rfl | part
      · exact fun _ => later
      · exact first t part

/- Every offset is the length of a part that is done, so no slice fails, and what is behind the offset is behind it
in the text as it was given. -/
theorem replaceEnvDone {fuel} (front rest : Str) (enough : rest.length < fuel) :
    replaceEnvLoop env fuel (front ++ rest) (strLen front) = .ok (front ++ expandEnv env 0 rest) := by
  induction fuel generalizing front rest with
  | zero => cases enough
  | succ fuel ih =>
    rw [replaceEnvLoop,splitAtAppend]
    simp only [okBind]
    cases opening : findStr ['{','$'] rest with
    | none =>
      rw [expandSame env (.inl (findStrAbsent opening))]
      rfl
    | some beginRel =>
      obtain ⟨a,c,rfl,rfl,first⟩ := findStrFirst opening
      have copied : expandEnv env 0 (a ++ (['{','$'] ++ c)) = a ++ expandEnv env 0 (['{','$'] ++ c) := by
        refine expandPlain env fun t part given => ?_
        by_contra found
        obtain ⟨inside,is⟩ := Option.ne_none_iff_exists'.mp found
        exact first t part given (variableOpens is).1
      have begins : strLen a + strLen front = strLen (front ++ a) := by
        rw [strLenAppend,Nat.add_comm]
      have searches : strLen a + strLen front + 2 = strLen (front ++ a ++ ['{','$']) := by
        rw [begins,strLenAppend (front ++ a)]
        rfl
      have whole : front ++ (a ++ (['{','$'] ++ c)) = (front ++ a ++ ['{','$']) ++ c := by simp
      dsimp only
      rw [copied,searches,whole,splitAtAppend]
      simp only [okBind]
      cases closing : findStr ['}'] c with
      | none =>
        have absent := findStrAbsent closing
        rw [List.singleton_infix_iff] at absent
        rw [expandSame env (.inr (by simpa using absent))]
        exact congrArg Except.ok (by simp)
      | some endRel =>
        obtain ⟨k,d,rfl,rfl,earliest⟩ := findStrFirst closing
        have open_ : '}' ∉ k := by
          intro mem
          obtain ⟨x,y,rfl⟩ := List.append_of_mem mem
          exact earliest ('}'::y) ⟨x,rfl⟩ (List.cons_ne_nil _ _) ⟨y ++ (['}'] ++ d),rfl⟩
        have ends : strLen k + strLen (front ++ a ++ ['{','$']) + 1 = strLen (front ++ a ++ ['{','$'] ++ k ++ ['}']) := by
          simp only [strLenAppend,strLenCons,strLenNil]
          have one : ('}' : Char).utf8Size = 1 := rfl
          omega
        have shorter : d.length < fuel := by
          simp only [List.length_append,List.length_cons] at enough
          omega
        have behind : front ++ a ++ ['{','$'] ++ (k ++ (['}'] ++ d)) = front ++ a ++ ['{','$'] ++ k ++ ['}'] ++ d := by simp
        have place := variableFront (d := d) open_
        dsimp only
        rw [ends,splitAtAppend k,behind]
        simp only [okBind]
        split
        · rename_i empty
          subst empty
          rw [ih _ d shorter]
          have kept : expandEnv env 0 (['{','$'] ++ ([] ++ (['}'] ++ d))) = ['{','$','}'] ++ expandEnv env 0 d := by
            rfl
          rw [kept]
          exact congrArg Except.ok (by simp)
        · rename_i given
          have middle : front ++ a ++ ['{','$'] ++ k ++ ['}'] ++ d = (front ++ a) ++ (['{','$'] ++ k ++ ['}'] ++ d) := by simp
          rw [begins,splitAtAppend,middle,splitAtAppend]
          rw [← strLenAppend]
          have put : expandEnv env 0 (['{','$'] ++ (k ++ (['}'] ++ d))) = envValue env k ++ expandEnv env 0 d := by
            have passed := expandSkip env ('$'::(k ++ ['}'])) d
            simp only [List.cons_append,List.nil_append,List.append_assoc,List.length_cons,List.length_append] at place passed ⊢
            rw [expandEnv,place,if_neg given]
            exact congrArg (envValue env k ++ ·) passed
          rw [put]
          refine (ih _ d shorter).trans (congrArg Except.ok ?_)
          simp [envValue]

theorem envExpandedOnce (env : Str → Option Str) (input : Str) : replaceEnvVars env input = .ok
    (expandEnv env 0 input) :=
  replaceEnvDone env [] input (Nat.lt_succ_self _)

theorem replaceEnvTotal (input : Str) : ∃ out, replaceEnvVars env input = .ok out :=
  ⟨_,replaceEnvDone env [] input (Nat.lt_succ_self _)⟩

end

theorem lastNewlineAt {a b} (free : '\n' ∉ b) : lastNewline (a ++ '\n'::b) = a.length := by
  have found : (a ++ '\n'::b).reverse.findIdx? (· == '\n') = some b.length := by
    rw [List.reverse_append,List.reverse_cons,List.append_assoc,List.findIdx?_append]
    have empty : b.reverse.findIdx? (· == '\n') = none := by
      rw [List.findIdx?_eq_none_iff]
      intro c mem
      rw [beq_eq_false_iff_ne]
      rintro rfl
      exact free (List.mem_reverse.mp mem)
    rw [empty]
    simp [List.findIdx?_cons]
  rw [lastNewline,found]
  simp

theorem lastNewlineNone {val} (free : '\n' ∉ val) : lastNewline val = 0 := by
  have found : val.reverse.findIdx? (· == '\n') = none := by
    rw [List.findIdx?_eq_none_iff]
    intro c mem
    rw [beq_eq_false_iff_ne]
    rintro rfl
    exact free (List.mem_reverse.mp mem)
  rw [lastNewline,found]
  rfl

theorem splitLast {val} (mem : '\n' ∈ val) : ∃ a b, val = a ++ '\n'::b ∧ '\n' ∉ b := by
  obtain ⟨b,a,same,free⟩ := List.eq_append_cons_of_mem (List.mem_reverse.mpr mem)
  refine ⟨a.reverse,b.reverse,?_,by simpa using free⟩
  have back := congrArg List.reverse same
  simpa using back

theorem stripReported {marker padding number} {lines e} (failed : stripLines marker padding number lines = .error e) :
    ∃ m, e = .reported m := by
  induction lines generalizing number with
  | nil => cases failed
  | cons line lines ih =>
    rw [stripLines] at failed
    cases rest : stripLines marker padding (number + 1) lines with
    | error e' =>
      rw [rest] at failed
      split at failed
      · cases failed
        exact ih rest
      · split at failed
        · cases failed
          exact ih rest
        · cases failed
          exact ⟨_,rfl⟩
    | ok out =>
      rw [rest] at failed
      split at failed
      · cases failed
      · split at failed
        · cases failed
        · cases failed
          exact ⟨_,rfl⟩

theorem finalizeSlices {val marker} (startLine : Nat) (room : lastNewline val + 1 ≤ val.length - marker.length) :
    ∃ padding, finalizeHeredoc val marker startLine = (do
      let out ← stripLines marker padding (startLine + 1) ((val.take (lastNewline val + 1)).splitOn '\n').dropLast
      return if out.getLast? = some '\n' then out.dropLast else out) := by
  refine ⟨(val.drop (lastNewline val + 1)).take (val.length - marker.length - (lastNewline val + 1)),?_⟩
  rw [finalizeHeredoc]
  rw [slice,slice,if_pos ⟨Nat.zero_le _,by omega⟩,if_pos ⟨room,Nat.sub_le _ _⟩]
  rfl

section
variable {marker : Str} (valid : isValidHeredocMarker marker = true)
include valid

theorem markerFree : marker ≠ [] ∧ '\n' ∉ marker := by
  rw [isValidHeredocMarker,Bool.and_eq_true,decide_eq_true_eq,List.all_eq_true] at valid
  exact ⟨valid.1,fun mem => absurd (valid.2 _ mem) (by decide)⟩

theorem finalizeWhole (startLine : Nat) :
    finalizeHeredoc marker marker startLine = .error .panic := by
  obtain ⟨given,free⟩ := markerFree valid
  have length := List.length_pos_iff.mpr given
  rw [finalizeHeredoc]
  rw [lastNewlineNone free,slice,slice,if_pos ⟨Nat.zero_le _,by omega⟩,if_neg (by omega)]
  rfl

theorem finalizeRoom {front} (more : front ≠ []) :
    lastNewline (front ++ marker) + 1 ≤ (front ++ marker).length - marker.length := by
  obtain ⟨-,free⟩ := markerFree valid
  have length := List.length_pos_iff.mpr more
  rw [List.length_append]
  by_cases mem : '\n' ∈ front
  · obtain ⟨a,b,rfl,last⟩ := splitLast mem
    have absent : '\n' ∉ b ++ marker := by
      rw [List.mem_append,not_or]
      exact ⟨last,free⟩
    rw [List.append_assoc,List.cons_append,lastNewlineAt absent,List.length_append,List.length_cons]
    omega
  · rw [lastNewlineNone (by rw [List.mem_append,not_or]; exact ⟨mem,free⟩)]
    omega

theorem finalizeFault {val startLine} {e} (ends : marker <:+ val)
    (failed : finalizeHeredoc val marker startLine = .error e) :
    (∃ m, e = .reported m) ∨ (e = .panic ∧ val = marker) := by
  obtain ⟨front,rfl⟩ := ends
  by_cases more : front = []
  · subst more
    rw [List.nil_append] at failed ⊢
    rw [finalizeWhole valid] at failed
    cases failed
    exact .inr ⟨rfl,rfl⟩
  · obtain ⟨padding,whole⟩ := finalizeSlices startLine (finalizeRoom valid more)
    rw [whole] at failed
    cases stripped : stripLines marker padding (startLine + 1)
        (((front ++ marker).take (lastNewline (front ++ marker) + 1)).splitOn '\n').dropLast with
    | error e' =>
      rw [stripped] at failed
      cases failed
      exact .inl (stripReported stripped)
    | ok out =>
      rw [stripped] at failed
      cases failed

end

inductive Visited (input : Str) : Str → Nat → Nat → Nat → Word → Prop where
  | start : Visited input input 0 1 0 (Word.fresh 1)
  | more {ch rest pos line skipped w w' line' skipped'} (visited : Visited input (ch::rest) pos line skipped w)
      (step : stepChar pos line skipped w ch = .ok (.more w' line' skipped')) :
      Visited input rest (pos + 1) line' skipped' w'
  | token {ch rest pos line skipped w t line' skipped'} (visited : Visited input (ch::rest) pos line skipped w)
      (step : stepChar pos line skipped w ch = .ok (.token t line' skipped')) :
      Visited input rest (pos + 1) line' skipped' (Word.fresh line')

def EmptyHeredoc (input : Str) : Prop :=
  ∃ rest pos line skipped w, Visited input rest pos line skipped w ∧ w.inHeredoc = true ∧ w.val = [] ∧
    w.heredocMarker <+: rest

variable {input rest : Str} {pos line skipped : Nat} {w : Word}

theorem mapPanic {r : Lexing (List Placed)} {t : Placed} : r.map (t::·) = .error .panic ↔ r = .error .panic := by
  cases r with
  | error e => simp [Except.map]
  | ok l => simp [Except.map]

theorem visitedPanic (visited : Visited input rest pos line skipped w) :
    lexFrom input 0 1 0 (Word.fresh 1) = .error .panic ↔ lexFrom rest pos line skipped w = .error .panic := by
  induction visited with
  | start => rfl
  | more visited step ih => rw [ih,lexMore step]
  | token visited step ih => rw [ih,lexToken step,mapPanic]

theorem stepHeredoc (inside : w.inHeredoc = true) (ch : Char) :
    stepChar pos line skipped w ch = heredocStep pos line skipped w ch := by
  simp [stepChar,inside]

section
variable {w' : Word} {ch : Char} {line' skipped' : Nat}

theorem quotedKeeps
    (step : quotedStep pos line skipped w ch = .more w' line' skipped') : w'.inHeredoc = w.inHeredoc := by
  have pushed {val : Str} (push : quotedPush line skipped w ch val = .more w' line' skipped') :
      w'.inHeredoc = w.inHeredoc := by
    rw [quotedPush] at push
    split at push
    · cases push
      rfl
    · cases push
      rfl
  rw [quotedStep] at step
  split at step
  · exact pushed step
  split at step
  · cases step
  · exact pushed step

theorem spaceKeeps (step : spaceStep pos line skipped w ch = .more w' line' skipped') : w'.inHeredoc = w.inHeredoc := by
  have ended {u : Word} {l s : Nat} (after : afterSpace pos l s ch u = .more w' line' skipped') :
      w'.inHeredoc = u.inHeredoc := by
    rw [afterSpace] at after
    split at after
    · cases after
      rfl
    · cases after
  rw [spaceStep] at step
  split at step
  · cases step
    rfl
  split at step
  · split at step
    · exact (ended step).trans rfl
    · exact (ended step).trans rfl
  · exact ended step

theorem plainPushKeeps (pos : Nat) (ch : Char) (w : Word) : (plainPush pos ch w).inHeredoc = w.inHeredoc := by
  rw [plainPush]
  split
  · split <;> rfl
  · rfl

theorem plainKeeps (step : plainStep pos line skipped w ch = .more w' line' skipped') : w'.inHeredoc = w.inHeredoc := by
  rw [plainStep] at step
  split at step
  · cases step
    rfl
  split at step
  · split at step
    · cases step
      rfl
    split at step
    · cases step
      rfl
    · cases step
      exact plainPushKeeps _ _ _
  · cases step
    exact plainPushKeeps _ _ _

end

theorem stepInHeredoc {w' ch line' skipped'} (inside : w'.inHeredoc = true)
    (step : stepChar pos line skipped w ch = .ok (.more w' line' skipped')) :
    (w.inHeredoc = true ∧ w'.val = w.val ++ [ch] ∧ w'.heredocMarker = w.heredocMarker) ∨
    (w'.val = [] ∧ isValidHeredocMarker w'.heredocMarker = true) := by
  by_cases before : w.inHeredoc = true
  · rw [stepHeredoc before,heredocStep] at step
    split at step
    · cases done : finalizeHeredoc (w.val ++ [ch]) w.heredocMarker w.tokenLine with
      | error e =>
        rw [done] at step
        cases step
      | ok out =>
        rw [done] at step
        cases step
    · cases step
      exact .inl ⟨before,rfl,rfl⟩
  · rw [stepChar] at step
    split at step
    · rw [openingStep] at step
      split at step
      · cases step
      split at step
      · cases step
        exact absurd inside before
      split at step
      · split at step
        · cases step
        split at step
        · cases step
        split at step
        · rename_i valid
          cases step
          exact .inr ⟨rfl,valid⟩
        · cases step
      · cases step
        exact absurd inside before
    split at step
    · cases step
      exact absurd inside before
    split at step
    · exact absurd ((quotedKeeps (Except.ok.inj step)).symm.trans inside) before
    split at step
    · exact absurd ((spaceKeeps (Except.ok.inj step)).symm.trans inside) before
    · exact absurd ((plainKeeps (Except.ok.inj step)).symm.trans inside) before

theorem stepFault {ch e} (step : stepChar pos line skipped w ch = .error e) :
    (∃ m, e = .reported m) ∨ (w.inHeredoc = true ∧ w.heredocMarker <:+ w.val ++ [ch] ∧
      finalizeHeredoc (w.val ++ [ch]) w.heredocMarker w.tokenLine = .error e) := by
  rw [stepChar] at step
  split at step
  · rw [openingStep] at step
    split at step
    · cases step
    split at step
    · cases step
    split at step
    · split at step
      · cases step
        exact .inl ⟨_,rfl⟩
      split at step
      · cases step
        exact .inl ⟨_,rfl⟩
      split at step
      · cases step
      · cases step
        exact .inl ⟨_,rfl⟩
    · cases step
  split at step
  · rename_i inside
    rw [heredocStep] at step
    split at step
    · rename_i ends
      cases done : finalizeHeredoc (w.val ++ [ch]) w.heredocMarker w.tokenLine with
      | error e' =>
        rw [done] at step
        cases step
        exact .inr ⟨inside,List.isSuffixOf_iff_suffix.mp ends,rfl⟩
      | ok out =>
        rw [done] at step
        cases step
    · cases step
  split at step
  · cases step
  split at step
  · cases step
  split at step
  · cases step
  · cases step

def Opened (input rest : Str) (w : Word) : Prop :=
  w.inHeredoc = true → isValidHeredocMarker w.heredocMarker = true ∧
    ∃ pos line skipped w', Visited input (w.val ++ rest) pos line skipped w' ∧ w'.inHeredoc = true ∧
      w'.val = [] ∧ w'.heredocMarker = w.heredocMarker

theorem openedAfter {ch w' line' skipped'} (visited : Visited input (ch::rest) pos line skipped w)
    (opened : Opened input (ch::rest) w) (step : stepChar pos line skipped w ch = .ok (.more w' line' skipped')) :
    Opened input rest w' := by
  intro inside
  rcases stepInHeredoc inside step with ⟨before,val,marker⟩ | ⟨val,valid⟩
  · obtain ⟨valid,origin⟩ := opened before
    rw [marker,val,List.append_assoc]
    exact ⟨valid,origin⟩
  · rw [val]
    exact ⟨valid,_,_,_,w',.more visited step,inside,val,rfl⟩

theorem panicEmpty (visited : Visited input rest pos line skipped w) (opened : Opened input rest w)
    (panic : lexFrom rest pos line skipped w = .error .panic) : EmptyHeredoc input := by
  induction rest generalizing pos line skipped w with
  | nil =>
    rw [lexFrom,atEnd] at panic
    split at panic
    · cases panic
    split at panic
    · cases panic
    · cases panic
  | cons ch rest ih =>
    cases step : stepChar pos line skipped w ch with
    | error e =>
      rw [lexFault step] at panic
      cases panic
      rcases stepFault step with ⟨m,other⟩ | ⟨inside,ends,failed⟩
      · cases other
      · obtain ⟨valid,pos',line',skipped',w',origin,inside',val,marker⟩ := opened inside
        rcases finalizeFault valid ends failed with ⟨m,other⟩ | ⟨-,whole⟩
        · cases other
        · refine ⟨_,pos',line',skipped',w',origin,inside',val,rest,?_⟩
          rw [marker,← whole,List.append_assoc]
          rfl
    | ok out =>
      cases out with
      | more w' line' skipped' =>
        rw [lexMore step] at panic
        exact ih (.more visited step) (openedAfter visited opened step) panic
      | token t line' skipped' =>
        rw [lexToken step,mapPanic] at panic
        exact ih (.token visited step) (fun inside => by cases inside) panic

theorem heredocPanics {front back more} (inside : w.inHeredoc = true) (val : w.val = front)
    (marker : w.heredocMarker = front ++ back) (valid : isValidHeredocMarker w.heredocMarker = true) (left : back ≠ [])
    : lexFrom (back ++ more) pos line skipped w = .error .panic := by
  induction back generalizing front pos line skipped w with
  | nil => exact absurd rfl left
  | cons ch back ih =>
    by_cases last : back = []
    · subst last
      have whole : w.val ++ [ch] = w.heredocMarker := by rw [val,marker]
      apply lexFault
      rw [stepHeredoc inside,heredocStep]
      simp only [whole]
      rw [if_pos (List.isSuffixOf_iff_suffix.mpr List.suffix_rfl),finalizeWhole valid]
      rfl
    · have short : ¬ w.heredocMarker.isSuffixOf (w.val ++ [ch]) = true := by
        rw [List.isSuffixOf_iff_suffix,val,marker]
        intro ends
        have length := ends.length_le
        have positive := List.length_pos_iff.mpr last
        simp only [List.length_append,List.length_cons,List.length_nil] at length
        omega
      have step : stepChar pos line skipped w ch =
          .ok (.more { w with val := w.val ++ [ch] } line (if ch = '\n' then skipped + 1 else skipped)) := by
        rw [stepHeredoc inside,heredocStep]
        simp only [if_neg short]
        rfl
      rw [List.cons_append,lexMore step]
      have read : ({ w with val := w.val ++ [ch] } : Word).val = front ++ [ch] := by rw [← val]
      have unread : w.heredocMarker = (front ++ [ch]) ++ back := by
        rw [marker,List.append_assoc]
        rfl
      exact ih inside read unread valid last

theorem openedVisited (visited : Visited input rest pos line skipped w) : Opened input rest w := by
  induction visited with
  | start => exact fun inside => by cases inside
  | more visited step ih => exact openedAfter visited ih step
  | token visited step ih => exact fun inside => by cases inside

theorem lexPanicsIff (input : Str) : lexFrom input 0 1 0 (Word.fresh 1) = .error .panic ↔ EmptyHeredoc input := by
  constructor
  · exact panicEmpty .start fun inside => by cases inside
  · rintro ⟨rest,pos,line,skipped,w,visited,inside,val,more,rfl⟩
    obtain ⟨valid,-⟩ := openedVisited visited inside
    rw [visitedPanic visited]
    exact heredocPanics inside val (List.nil_append _).symm valid (markerFree valid).1

theorem lexFaults {e} (failed : lexFrom rest pos line skipped w = .error e)
    (visited : Visited input rest pos line skipped w) : e = .panic ∨ ∃ m, e = .reported m := by
  induction rest generalizing pos line skipped w with
  | nil =>
    rw [lexFrom,atEnd] at failed
    split at failed
    · cases failed
    split at failed
    · cases failed
      exact .inr ⟨_,rfl⟩
    · cases failed
  | cons ch rest ih =>
    cases step : stepChar pos line skipped w ch with
    | error e' =>
      rw [lexFault step] at failed
      cases failed
      rcases stepFault step with reported | ⟨inside,ends,done⟩
      · exact .inr reported
      · exact (finalizeFault (openedVisited visited inside).1 ends done).symm.imp (·.1) id
    | ok out =>
      cases out with
      | more w' line' skipped' =>
        rw [lexMore step] at failed
        exact ih failed (.more visited step)
      | token t line' skipped' =>
        rw [lexToken step] at failed
        cases rest_ : lexFrom rest (pos + 1) line' skipped' (Word.fresh line') with
        | error e' =>
          rw [rest_] at failed
          cases failed
          exact ih rest_ (.token visited step)
        | ok l =>
          rw [rest_] at failed
          cases failed

end ZeroServe.Caddyfile
