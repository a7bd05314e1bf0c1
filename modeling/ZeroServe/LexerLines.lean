import ZeroServe.SiteAddress

/-! The line numbers of the tokens and the line ends of the text. A line end between two tokens is counted unless a
backslash stands before it on its line; an escaped one is counted with the next. -/
namespace ZeroServe.Caddyfile
open CharText

def between (text : Str) (first last : Nat) : Str := (text.drop first).take (last - first)

theorem betweenSelf (text : Str) (n : Nat) : between text n n = [] := by
  rw [between,Nat.sub_self,List.take_zero]

theorem betweenNext {text rest ch first pos} (le : first ≤ pos) (here : text.drop pos = ch::rest) :
    between text first (pos + 1) = between text first pos ++ [ch] := by
  have found : (text.drop first)[pos - first]? = some ch := by
    rw [List.getElem?_drop,Nat.add_sub_cancel' le]
    have head : (text.drop pos)[0]? = some ch := by rw [here]; rfl
    rwa [List.getElem?_drop] at head
  rw [between,Nat.succ_sub le,List.take_add_one,found]
  rfl

theorem betweenAppend (text : Str) {a b c} (first : a ≤ b) (second : b ≤ c) :
    between text a c = between text a b ++ between text b c := by
  rw [between,between,between,show c - a = (b - a) + (c - b) by omega,List.take_add,List.drop_drop,
    Nat.add_sub_cancel' first]

def unescapedEnd : Bool → Str → Bool
  | _,[] => false
  | escaped,c::rest =>
    if c = '\n' then !escaped || unescapedEnd false rest
    else if c = '\r' then unescapedEnd escaped rest
    else unescapedEnd (c == '\\' && !escaped) rest

/- How the loop counts between two tokens: the line, the escaped line ends not counted yet, and whether a
backslash was read on this line. -/
def walk (place : Nat × Nat × Bool) (c : Char) : Nat × Nat × Bool :=
  if c = '\n' then
    if place.2.2 then (place.1,place.2.1 + 1,false) else (place.1 + 1 + place.2.1,0,false)
  else (place.1,place.2.1,place.2.2 || c == '\\')

theorem walkPlain {c} (line : c ≠ '\n') (slash : c ≠ '\\') (place : Nat × Nat × Bool) : walk place c = place := by
  rw [walk,if_neg line,beq_false_of_ne slash,Bool.or_false]

theorem walkSlash (l s : Nat) (e : Bool) : walk (l,s,e) '\\' = (l,s,true) := by
  cases e <;> rfl

def linesPassed (skipped : Nat) (gap : Str) : Nat := (gap.foldl walk (0,skipped,false)).1

theorem walkShift (gap : Str) (l m s : Nat) (e : Bool) :
    gap.foldl walk (l + m,s,e) = (l + (gap.foldl walk (m,s,e)).1,(gap.foldl walk (m,s,e)).2) := by
  induction gap generalizing m s e with
  | nil => rfl
  | cons c gap ih =>
    have step : walk (l + m,s,e) c = (l + (walk (m,s,e) c).1,(walk (m,s,e) c).2) := by
      rw [walk,walk]
      split
      · cases e
        · simp only [Bool.false_eq_true,if_false]
          rw [show l + m + 1 + s = l + (m + 1 + s) by omega]
        · rfl
      · rfl
    rw [List.foldl_cons,List.foldl_cons,step]
    obtain ⟨m',s',e'⟩ := walk (m,s,e) c
    exact ih m' s' e'

def countedEnd : Bool → Str → Bool
  | _,[] => false
  | stray,c::rest => if c = '\n' then !stray || countedEnd false rest else countedEnd (stray || c == '\\') rest

theorem passedIff (gap : Str) (m s : Nat) (e : Bool) : m < (gap.foldl walk (m,s,e)).1 ↔ countedEnd e gap = true := by
  induction gap generalizing m s e with
  | nil => simp [countedEnd]
  | cons c gap ih =>
    rw [List.foldl_cons,walk,countedEnd]
    split
    · cases e
      · have grows : m + 1 + s ≤ (gap.foldl walk (m + 1 + s,0,false)).1 := by
          have shifted := walkShift gap (m + 1 + s) 0 0 false
          rw [Nat.add_zero] at shifted
          rw [shifted]
          exact Nat.le_add_right _ _
        refine iff_of_true ?_ (by simp)
        simp only [Bool.false_eq_true,if_false]
        omega
      · simpa using ih m (s + 1) false
    · exact ih m s (e || c == '\\')

theorem linesPassedIff (skipped : Nat) (gap : Str) : 0 < linesPassed skipped gap ↔ countedEnd false gap = true :=
  passedIff gap 0 skipped false

theorem countedUnescaped {stray escaped gap} (weaker : escaped = true → stray = true)
    (counted : countedEnd stray gap = true) : unescapedEnd escaped gap = true := by
  induction gap generalizing stray escaped with
  | nil => cases counted
  | cons c gap ih =>
    rw [countedEnd] at counted
    rw [unescapedEnd]
    split at counted
    · rename_i line
      rw [if_pos line,Bool.or_eq_true] at *
      rcases counted with first | later
      · cases stray
        · cases escaped
          · exact .inl rfl
          · exact absurd (weaker rfl) (by decide)
        · cases first
      · exact .inr (ih (fun h => h) later)
    · rename_i other
      rw [if_neg other]
      split
      · exact ih (fun h => by rw [weaker h]; rfl) counted
      · refine ih (fun h => ?_) counted
        rw [Bool.and_eq_true] at h
        rw [h.1,Bool.or_true]

theorem linesSplit (s : Str) : (s.splitOn '\n').length = s.count '\n' + 1 ∧ ∀ line ∈ s.splitOn '\n', '\n' ∉ line := by
  induction s with
  | nil => simp
  | cons c s ih =>
    rw [List.splitOn,List.splitOnP_cons_eq_if_modifyHead]
    split
    · rename_i same
      rw [eq_of_beq same,List.count_cons_self]
      refine ⟨congrArg (· + 1) ih.1,?_⟩
      rw [List.forall_mem_cons]
      exact ⟨List.not_mem_nil,ih.2⟩
    · rename_i other
      have ne : c ≠ '\n' := by simpa using other
      rw [List.length_modifyHead,List.count_cons_of_ne ne]
      refine ⟨ih.1,?_⟩
      have pieces := ih.2
      rw [List.splitOn] at pieces
      cases inner : List.splitOnP (· == '\n') s with
      | nil => simp
      | cons first more =>
        rw [inner,List.forall_mem_cons] at pieces
        change ∀ line ∈ (c::first)::more, '\n' ∉ line
        rw [List.forall_mem_cons,List.mem_cons,not_or]
        exact ⟨⟨ne.symm,pieces.1⟩,pieces.2⟩

theorem stripCount {marker padding number} {lines out} (free : ∀ line ∈ lines, '\n' ∉ line)
    (done : stripLines marker padding number lines = .ok out) :
    out.count '\n' = lines.length ∧ (lines ≠ [] → out.getLast? = some '\n') := by
  induction lines generalizing number out with
  | nil =>
    cases done
    exact ⟨rfl,fun given => absurd rfl given⟩
  | cons line lines ih =>
    obtain ⟨freeLine,freeLines⟩ := List.forall_mem_cons.mp free
    rw [stripLines] at done
    cases rest : stripLines marker padding (number + 1) lines with
    | error e =>
      rw [rest] at done
      split at done
      · cases done
      split at done
      · cases done
      · cases done
    | ok inner =>
      obtain ⟨count,last⟩ := ih freeLines rest
      have ending : ('\n'::inner).getLast? = some '\n' := by
        by_cases bare : lines = []
        · have empty : inner = [] := by
            rw [bare] at rest
            cases rest
            rfl
          rw [empty]
          rfl
        · rw [List.getLast?_cons,last bare]
          rfl
      rw [rest] at done
      split at done
      · cases done
        exact ⟨by rw [List.count_cons_self,count,List.length_cons],fun _ => ending⟩
      split at done
      · cases done
        have inLine : ((line.drop padding.length).filter (· ≠ '\r')).count '\n' = 0 := by
          rw [List.count_eq_zero]
          exact fun mem => freeLine (List.mem_of_mem_drop (List.mem_of_mem_filter mem))
        refine ⟨?_,fun _ => ?_⟩
        · rw [List.count_append,inLine,List.count_cons_self,count,List.length_cons,Nat.zero_add]
        · rw [List.getLast?_append,ending]
          rfl
      · cases done

theorem finalizeCount {val marker out startLine} (valid : isValidHeredocMarker marker = true) (ends : marker <:+ val)
    (done : finalizeHeredoc val marker startLine = .ok out) : out.count '\n' = val.count '\n' - 1 := by
  obtain ⟨front,rfl⟩ := ends
  by_cases more : front = []
  · subst more
    rw [List.nil_append,finalizeWhole valid] at done
    cases done
  obtain ⟨padding,whole⟩ := finalizeSlices startLine (finalizeRoom valid more)
  rw [whole] at done
  cases stripped : stripLines marker padding (startLine + 1)
      (((front ++ marker).take (lastNewline (front ++ marker) + 1)).splitOn '\n').dropLast with
  | error e =>
    rw [stripped] at done
    cases done
  | ok inner =>
    rw [stripped] at done
    have result := Except.ok.inj done
    obtain ⟨length,free⟩ := linesSplit ((front ++ marker).take (lastNewline (front ++ marker) + 1))
    obtain ⟨count,last⟩ := stripCount (fun line mem => free line (List.mem_of_mem_dropLast mem)) stripped
    rw [List.length_dropLast,length,Nat.add_sub_cancel] at count
    by_cases mem : '\n' ∈ front ++ marker
    · obtain ⟨a,b,split,freeB⟩ := splitLast mem
      have head : (front ++ marker).take (lastNewline (front ++ marker) + 1) = a ++ ['\n'] := by
        rw [split,lastNewlineAt freeB]
        simp [List.take_append]
      have counts : (front ++ marker).count '\n' = (a ++ ['\n']).count '\n' := by
        rw [split,List.count_append,List.count_cons_self,List.count_eq_zero.mpr freeB,List.count_append]
        rfl
      rw [head] at count last length
      have filled : ((a ++ ['\n']).splitOn '\n').dropLast ≠ [] := by
        intro empty
        have zero := congrArg List.length empty
        rw [List.length_dropLast,length] at zero
        simp at zero
      have ending := last filled
      rw [if_pos ending] at result
      have cut : inner = out ++ ['\n'] := by
        rw [← result]
        exact (List.dropLast_append_getLast? _ ending).symm
      rw [counts,← count,cut]
      simp
    · have one : (front ++ marker).take (lastNewline (front ++ marker) + 1) <+: front ++ marker := List.take_prefix _ _
      have zero : ((front ++ marker).take (lastNewline (front ++ marker) + 1)).count '\n' = 0 := by
        rw [List.count_eq_zero]
        exact fun inside => mem (one.subset inside)
      rw [zero] at count
      rw [List.count_eq_zero.mpr mem,← result]
      split
      · exact List.count_eq_zero.mpr fun inside => (List.count_eq_zero.mp count) (List.mem_of_mem_dropLast inside)
      · exact count

end ZeroServe.Caddyfile
