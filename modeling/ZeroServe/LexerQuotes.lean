import ZeroServe.SiteAddress

/-! Strings between quotes come back from the lexer as they were, all on one line: nothing inside them switches
the mode of the loop. -/
namespace ZeroServe.Caddyfile
open CharText

def opensVariable : Str := ['{','$']

theorem opensApart {c : Char} {x y : Str} (brace : c ≠ '{') (dollar : c ≠ '$') (inside : opensVariable <:+: x ++ c::y) :
    opensVariable <:+: x ∨ opensVariable <:+: y := by
  obtain ⟨a,b,same⟩ := inside
  rw [List.append_assoc] at same
  rcases List.append_eq_append_iff.mp same with ⟨t,rfl,behind⟩ | ⟨t,rfl,behind⟩
  · left
    cases t with
    | nil => exact absurd (List.cons.inj behind).1.symm brace
    | cons d t =>
      obtain ⟨rfl,next⟩ := List.cons.inj behind
      cases t with
      | nil => exact absurd (List.cons.inj next).1.symm dollar
      | cons d t =>
        obtain ⟨rfl,-⟩ := List.cons.inj next
        exact ⟨a,t,by simp [opensVariable]⟩
  · right
    cases t with
    | nil => exact absurd (List.cons.inj behind).1 brace
    | cons d t => exact ⟨t,b,by rw [List.append_assoc]; exact (List.cons.inj behind).2.symm⟩

theorem replaceEnvPlain (env : Str → Option Str) {input} (free : ¬ opensVariable <:+: input) :
    replaceEnvVars env input = .ok input := by
  rw [replaceEnvVars,replaceEnvLoop]
  have start : splitAt input 0 = .ok ([],input) := splitAtAppend [] input
  rw [start,okBind]
  have absent : findStr ['{','$'] input = none := findStrNone free
  rw [absent]
  rfl

def quoteAll (q : Char) (strings : List Str) : Str := [' '].intercalate (strings.map fun s => q::(s ++ [q]))

theorem quoteAllCons (q : Char) (s t : Str) (strings : List Str) :
    quoteAll q (s::t::strings) = q::(s ++ q:: ' '::quoteAll q (t::strings)) := by
  rw [quoteAll,quoteAll]
  simp

theorem quoteAllFree {q : Char} {strings : List Str} (brace : q ≠ '{') (dollar : q ≠ '$')
    (free : ∀ s ∈ strings, ¬ opensVariable <:+: s) : ¬ opensVariable <:+: quoteAll q strings := by
  have empty : ¬ opensVariable <:+: [] := by decide
  induction strings with
  | nil => exact empty
  | cons s strings ih =>
    obtain ⟨first,later⟩ := List.forall_mem_cons.mp free
    cases strings with
    | nil =>
      intro inside
      rw [quoteAll,List.map_singleton,List.intercalate_singleton] at inside
      rcases opensApart (x := []) brace dollar inside with absent | inside
      · exact empty absent
      rcases opensApart brace dollar inside with here | absent
      · exact first here
      · exact empty absent
    | cons t strings =>
      intro inside
      rw [quoteAllCons] at inside
      rcases opensApart (x := []) brace dollar inside with absent | inside
      · exact empty absent
      rcases opensApart brace dollar inside with here | inside
      · exact first here
      rcases opensApart (x := []) (by decide) (by decide) inside with absent | inside
      · exact empty absent
      · exact ih later inside

def mark (double : Bool) : Char := if double then '"' else '`'

def Plain (double : Bool) (s : Str) : Prop :=
  mark double ∉ s ∧ (double = true → '\\' ∉ s) ∧ ¬ opensVariable <:+: s

variable {double : Bool} {w : Word}

theorem quoteOpens (pos line : Nat) : ∃ w, stepChar pos line 0 (Word.fresh line) (mark double) = .ok (.more w line 0) ∧
    w.quoted = double ∧ w.btQuoted = !double ∧ w.inHeredoc = false ∧ w.escaped = false ∧ w.val = [] ∧
    w.tokenLine = line := by
  cases double
  · exact ⟨{ Word.fresh line with tokenLine := line, start := pos, before := 0, btQuoted := true },rfl,rfl,rfl,rfl,rfl,rfl,rfl⟩
  · exact ⟨{ Word.fresh line with tokenLine := line, start := pos, before := 0, quoted := true },rfl,rfl,rfl,rfl,rfl,rfl,rfl⟩

theorem quoteReads {c} (quoted : w.quoted = double) (btQuoted : w.btQuoted = !double) (inHeredoc : w.inHeredoc = false)
    (escaped : w.escaped = false) (other : c ≠ mark double) (slash : double = true → c ≠ '\\') (pos line : Nat) :
    stepChar pos line 0 w c =
      .ok (.more { w with val := w.val ++ [c], escaped := false } (line + if c = '\n' then 1 else 0) 0) := by
  cases double
  · have tick : c ≠ '`' := other
    by_cases lf : c = '\n'
    · simp [stepChar,quotedStep,quotedPush,btQuoted,inHeredoc,escaped,lf]
      rfl
    · simp [stepChar,quotedStep,quotedPush,quoted,btQuoted,inHeredoc,escaped,lf,tick]
      rfl
  · have back := slash rfl
    have quote : c ≠ '"' := other
    by_cases lf : c = '\n'
    · simp [stepChar,quotedStep,quotedPush,quoted,inHeredoc,escaped,lf]
      rfl
    · simp [stepChar,quotedStep,quotedPush,quoted,btQuoted,inHeredoc,escaped,lf,back,quote]
      rfl

theorem quoteCloses (quoted : w.quoted = double) (btQuoted : w.btQuoted = !double) (inHeredoc : w.inHeredoc = false)
    (escaped : w.escaped = false) (pos line : Nat) : stepChar pos line 0 w (mark double) =
      .ok (.token (makeToken w w.val (if double then .double else .backtick) (pos + 1)) line 0) := by
  cases double
  · simp [stepChar,quotedStep,quoted,btQuoted,inHeredoc]
    rfl
  · simp [stepChar,quotedStep,mark,quoted,inHeredoc,escaped]
    rfl

structure Holds (s : Str) (line : Nat) (t : Placed) : Prop where
  text : t.token.text = s
  line : t.token.line = line
  imports : t.token.imports = []
  quote : t.token.quote ≠ .heredoc

theorem quoteRead {s} (quoted : w.quoted = double) (btQuoted : w.btQuoted = !double) (inHeredoc : w.inHeredoc = false)
    (escaped : w.escaped = false) (free : mark double ∉ s) (slash : double = true → '\\' ∉ s) (pos line : Nat)
    (rest : Str) : ∃ t, Holds (w.val ++ s) w.tokenLine t ∧ lexFrom (s ++ mark double::rest) pos line 0 w =
      (lexFrom rest (pos + s.length + 1) (line + s.count '\n') 0 (Word.fresh (line + s.count '\n'))).map (t::·) := by
  induction s generalizing w pos line with
  | nil =>
    refine ⟨makeToken w w.val (if double then .double else .backtick) (pos + 1),⟨?_,rfl,rfl,?_⟩,
      lexToken (quoteCloses quoted btQuoted inHeredoc escaped pos line)⟩
    · rw [List.append_nil]
      rfl
    · cases double <;> exact Quote.noConfusion
  | cons c s ih =>
    rw [List.mem_cons,not_or] at free
    have next : double = true → c ≠ '\\' ∧ '\\' ∉ s := by
      intro on
      have absent := slash on
      rw [List.mem_cons,not_or] at absent
      exact ⟨Ne.symm absent.1,absent.2⟩
    have step := quoteReads quoted btQuoted inHeredoc escaped (Ne.symm free.1) (fun on => (next on).1) pos line
    obtain ⟨t,holds,read⟩ := @ih { w with val := w.val ++ [c], escaped := false } quoted btQuoted inHeredoc rfl free.2
      (fun on => (next on).2) (pos + 1) (line + if c = '\n' then 1 else 0)
    refine ⟨t,⟨?_,holds.line,holds.imports,holds.quote⟩,?_⟩
    · rw [holds.text]
      exact List.append_assoc w.val [c] s
    · have lines : (line + if c = '\n' then 1 else 0) + s.count '\n' = line + (c::s).count '\n' := by
        rw [List.count_cons]
        simp only [beq_iff_eq]
        omega
      rw [List.cons_append,lexMore step,read,lines,List.length_cons,show pos + 1 + s.length + 1 = pos + (s.length + 1) + 1 by omega]

inductive InLine : Nat → List Str → List Placed → Prop where
  | nil {line} : InLine line [] []
  | cons {line s strings t l} (holds : Holds s line t) (next : InLine (line + s.count '\n') strings l) :
      InLine line (s::strings) (t::l)

theorem quoteAllRead {strings} (plain : ∀ s ∈ strings, Plain double s) (pos line : Nat) :
    ∃ l, lexFrom (quoteAll (mark double) strings) pos line 0 (Word.fresh line) = .ok l ∧ InLine line strings l := by
  induction strings generalizing pos line with
  | nil => exact ⟨[],rfl,.nil⟩
  | cons s strings ih =>
    obtain ⟨⟨free,slash,-⟩,later⟩ := List.forall_mem_cons.mp plain
    obtain ⟨w,opens,quoted,btQuoted,inHeredoc,escaped,val,tokenLine⟩ := @quoteOpens double pos line
    have read (rest : Str) := quoteRead quoted btQuoted inHeredoc escaped free slash (pos + 1) line rest
    rw [val,tokenLine] at read
    cases strings with
    | nil =>
      obtain ⟨t,holds,reads⟩ := read []
      refine ⟨[t],?_,.cons holds .nil⟩
      rw [quoteAll,List.map_singleton,List.intercalate_singleton,lexMore opens,reads]
      rfl
    | cons s' strings =>
      obtain ⟨t,holds,reads⟩ := read (' '::quoteAll (mark double) (s'::strings))
      obtain ⟨l,done,inLine⟩ := ih later (pos + 1 + s.length + 1 + 1) (line + s.count '\n')
      refine ⟨t::l,?_,.cons holds inLine⟩
      have space (pos line : Nat) : stepChar pos line 0 (Word.fresh line) ' ' = .ok (.more (Word.fresh line) line 0) := rfl
      rw [quoteAllCons,lexMore opens,reads,lexMore (space _ _),done]
      rfl

theorem inLineTexts {line} {strings l} (inLine : InLine line strings l) : l.map (·.token.text) = strings := by
  induction inLine with
  | nil => rfl
  | cons holds _ ih => rw [List.map_cons,holds.text,ih]

theorem inLineNext {line i} {strings l p q} (inLine : InLine line strings l) (first : l[i]? = some p)
    (second : l[i + 1]? = some q) (filename : Str) :
    isNextOnNewLine { p.token with file := filename } { q.token with file := filename } = false := by
  induction inLine generalizing i with
  | nil => cases first
  | @cons line s strings t l holds next ih =>
    cases i with
    | zero =>
      cases first
      cases next with
      | nil => cases second
      | cons holds' _ =>
        cases second
        rw [isNextOnNewLine]
        simp only [holds.imports,holds'.imports,holds.line,holds'.line,Token.numLineBreaks,holds.text]
        simp
    | succ i => exact ih first second

theorem quotedTogether (env : Str → Option Str) (filename : Str) {strings} (plain : ∀ s ∈ strings, Plain double s) :
    ∃ tokens, tokenize env (quoteAll (mark double) strings) filename = .ok tokens ∧ tokens.map (·.text) = strings ∧
      ∀ i p q, tokens[i]? = some p → tokens[i + 1]? = some q → isNextOnNewLine p q = false := by
  have marks : mark double ≠ '{' ∧ mark double ≠ '$' := by cases double <;> decide
  have free := quoteAllFree marks.1 marks.2 fun s mem => (plain s mem).2.2
  have start : textRead (quoteAll (mark double) strings) = quoteAll (mark double) strings := by
    refine if_neg fun bom => ?_
    cases strings with
    | nil => cases bom
    | cons s strings =>
      have head : (quoteAll (mark double) (s::strings)).head? = some (mark double) := by
        cases strings with
        | nil => rfl
        | cons t strings =>
          rfl
      rw [head] at bom
      revert bom
      cases double <;> decide
  obtain ⟨l,done,inLine⟩ := quoteAllRead plain 0 1
  refine ⟨l.map fun p => { p.token with file := filename },?_,?_,?_⟩
  · rw [tokenize,replaceEnvPlain env free,okBind,placedLexed,start,done]
    rfl
  · rw [List.map_map]
    exact inLineTexts inLine
  · intro i p q first second
    rw [List.getElem?_map,Option.map_eq_some_iff] at first second
    obtain ⟨t,atT,rfl⟩ := first
    obtain ⟨u,atU,rfl⟩ := second
    exact inLineNext inLine atT atU filename

theorem quotingRoundTrip (env : Str → Option Str) (filename : Str) (strings : List Str) :
    ((∀ s ∈ strings, '`' ∉ s ∧ ¬ ['{','$'] <:+: s) →
      ∃ tokens, tokenize env (quoteAll '`' strings) filename = .ok tokens ∧ tokens.map (·.text) = strings ∧
        ∀ i p q, tokens[i]? = some p → tokens[i + 1]? = some q → isNextOnNewLine p q = false) ∧
    ((∀ s ∈ strings, '\\' ∉ s ∧ '"' ∉ s ∧ ¬ ['{','$'] <:+: s) →
      ∃ tokens, tokenize env (quoteAll '"' strings) filename = .ok tokens ∧ tokens.map (·.text) = strings ∧
        ∀ i p q, tokens[i]? = some p → tokens[i + 1]? = some q → isNextOnNewLine p q = false) := by
  constructor
  · intro plain
    refine @quotedTogether false env filename strings fun s mem => ⟨(plain s mem).1,?_,(plain s mem).2⟩
    intro off
    cases off
  · intro plain
    exact @quotedTogether true env filename strings fun s mem =>
      ⟨(plain s mem).2.1,fun _ => (plain s mem).1,(plain s mem).2.2⟩

theorem quotedPair : (∃ tokens, tokenize (fun _ => none) (quoteAll '`' [str "# <<a\nb",[]]) (str "f") = .ok tokens ∧
      tokens.map (·.text) = [str "# <<a\nb",[]] ∧
      ∀ i p q, tokens[i]? = some p → tokens[i + 1]? = some q → isNextOnNewLine p q = false) ∧
    ∃ tokens, tokenize (fun _ => none) (quoteAll '"' [str "# <<a\nb",[]]) (str "f") = .ok tokens ∧
      tokens.map (·.text) = [str "# <<a\nb",[]] ∧
      ∀ i p q, tokens[i]? = some p → tokens[i + 1]? = some q → isNextOnNewLine p q = false :=
  ⟨(quotingRoundTrip (fun _ => none) (str "f") [str "# <<a\nb",[]]).1 (by decide +kernel),
    (quotingRoundTrip (fun _ => none) (str "f") [str "# <<a\nb",[]]).2 (by decide +kernel)⟩

end ZeroServe.Caddyfile
