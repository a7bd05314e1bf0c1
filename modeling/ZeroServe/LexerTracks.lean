import ZeroServe.LexerLines

/-! The run of the lexer with its counters beside the text: every token is linked to the one before it by the gap
between them. -/
namespace ZeroServe.Caddyfile
open CharText

section

def breaks (text : Str) (p : Placed) : Nat := (between text p.start p.finish).count '\n'

def behind (line before n : Nat) : Nat × Nat := if n = 0 then (line,before) else (line + before + n,0)

def counters (text : Str) (p : Placed) : Nat × Nat × Bool :=
  ((behind p.token.line p.before (breaks text p)).1,(behind p.token.line p.before (breaks text p)).2,false)

structure Linked (text : Str) (p q : Placed) : Prop where
  order : p.finish ≤ q.start
  counted : ∃ e, (between text p.finish q.start).foldl walk (counters text p) = (q.token.line,q.before,e)

structure Spelled (text : Str) (p : Placed) : Prop where
  file : p.token.file = []
  imports : p.token.imports = []
  lines : p.token.numLineBreaks = if p.token.quote = .heredoc ∧ breaks text p = 1 then 2 else breaks text p

variable {text rest : Str} {prev : Option Placed} {pos line skipped : Nat} {w : Word} {ch : Char}

structure Started (text : Str) (prev : Option Placed) (pos : Nat) (w : Word) : Prop where
  order : w.start ≤ pos
  linked : ∀ p ∈ prev, p.finish ≤ w.start ∧
    ∃ e, (between text p.finish w.start).foldl walk (counters text p) = (w.tokenLine,w.before,e)

section
variable (text : Str) (prev : Option Placed) (pos line skipped : Nat) (w : Word)

structure Lead : Prop where
  val : w.val = []
  quoted : w.quoted = false
  btQuoted : w.btQuoted = false
  inHeredoc : w.inHeredoc = false
  counted : ∀ p ∈ prev, p.finish ≤ pos ∧
    (between text p.finish pos).foldl walk (counters text p) = (line,skipped,w.escaped)

structure Bare : Prop where
  val : w.val ≠ []
  comment : w.comment = false
  quoted : w.quoted = false
  btQuoted : w.btQuoted = false
  inHeredoc : w.inHeredoc = false
  started : Started text prev pos w
  order : w.start ≤ w.finish ∧ w.finish ≤ pos
  free : '\n' ∉ between text w.start pos
  freeVal : '\n' ∉ w.val
  lines : line = w.tokenLine ∧ skipped = w.before
  counted : (between text w.finish pos).foldl walk (line,skipped,false) = (line,skipped,w.escaped)
  opening : opensHeredoc w.val = true → w.heredocEscaped = false → w.escaped = false

structure Quoted : Prop where
  mode : (w.quoted = true ∧ w.btQuoted = false) ∨ (w.quoted = false ∧ w.btQuoted = true)
  inHeredoc : w.inHeredoc = false
  started : Started text prev pos w
  lines : (line,skipped) = behind w.tokenLine w.before ((between text w.start pos).count '\n')
  count : w.val.count '\n' = (between text w.start pos).count '\n'

structure Heredoc : Prop where
  quoted : w.quoted = false
  btQuoted : w.btQuoted = false
  inHeredoc : w.inHeredoc = true
  valid : isValidHeredocMarker w.heredocMarker = true
  started : Started text prev pos w
  lines : line = w.tokenLine ∧ skipped = w.before + (between text w.start pos).count '\n'
  count : w.val.count '\n' + 1 = (between text w.start pos).count '\n'

inductive Tracked : Prop where
  | lead (now : Lead text prev pos line skipped w)
  | bare (now : Bare text prev pos line skipped w)
  | quoted (now : Quoted text prev pos line skipped w)
  | heredoc (now : Heredoc text prev pos line skipped w)

end

def After (text : Str) (prev : Option Placed) (pos : Nat) : Step → Prop
  | .more w line skipped => Tracked text prev (pos + 1) line skipped w
  | .token p line skipped => (∀ q ∈ prev, Linked text q p) ∧ Spelled text p ∧
    Tracked text (some p) (pos + 1) line skipped (Word.fresh line)

theorem freshTracked {p} (order : p.finish ≤ pos)
    (counted : (between text p.finish pos).foldl walk (counters text p) = (line,skipped,false)) :
    Tracked text (some p) pos line skipped (Word.fresh line) := by
  refine .lead ⟨rfl,rfl,rfl,rfl,?_⟩
  rintro q ⟨⟩
  exact ⟨order,counted⟩

theorem Started.next {u} (started : Started text prev pos w) (start : u.start = w.start)
    (tokenLine : u.tokenLine = w.tokenLine) (before : u.before = w.before) : Started text prev (pos + 1) u := by
  refine ⟨by rw [start]; exact Nat.le_succ_of_le started.order,?_⟩
  rw [start,tokenLine,before]
  exact started.linked

theorem Started.link (started : Started text prev pos w) {val quote finish} :
    ∀ q ∈ prev, Linked text q (makeToken w val quote finish) := by
  intro q mem
  obtain ⟨order,counted⟩ := started.linked q mem
  exact ⟨order,counted⟩

theorem leadStarts (lead : Lead text prev pos line skipped w) {u} (start : u.start = pos)
    (tokenLine : u.tokenLine = line) (before : u.before = skipped) : Started text prev (pos + 1) u := by
  refine ⟨by omega,fun p mem => ?_⟩
  obtain ⟨order,place⟩ := lead.counted p mem
  rw [start,tokenLine,before]
  exact ⟨order,w.escaped,place⟩

structure Pushed (pos : Nat) (w u : Word) : Prop where
  val : u.val ≠ []
  free : '\n' ∉ w.val → '\n' ∉ u.val
  escaped : u.escaped = false
  finish : u.finish = pos + 1
  same : u.comment = w.comment ∧ u.quoted = w.quoted ∧ u.btQuoted = w.btQuoted ∧ u.inHeredoc = w.inHeredoc ∧
    u.tokenLine = w.tokenLine ∧ u.start = w.start ∧ u.before = w.before

theorem pushed (w : Word) (pos : Nat) (plain : ch ≠ '\n') (escaped : w.escaped = false) : Pushed pos w
    (w.push pos ch) := by
  refine ⟨by simp [Word.push],fun free => ?_,escaped,rfl,rfl,rfl,rfl,rfl,rfl,rfl,rfl⟩
  change '\n' ∉ w.val ++ [ch]
  rw [List.mem_append,List.mem_singleton,not_or]
  exact ⟨free,plain.symm⟩

theorem plainPushed (w : Word) (pos : Nat) (plain : ch ≠ '\n') : Pushed pos w (plainPush pos ch w) := by
  rw [plainPush]
  split
  · split
    · have push := pushed { w with heredocEscaped := true, escaped := false } pos plain rfl
      exact ⟨push.val,push.free,push.escaped,push.finish,push.same⟩
    · have push := pushed { w with val := w.val ++ ['\\'], escaped := false } pos plain rfl
      refine ⟨push.val,fun free => push.free ?_,push.escaped,push.finish,push.same⟩
      rw [List.mem_append,not_or]
      exact ⟨free,by decide⟩
  · rename_i not_
    exact pushed w pos plain (by simpa using not_)

theorem pushTracked {u} (push : Pushed pos w u) (here : text.drop pos = ch::rest) (plain : ch ≠ '\n')
    (started : Started text prev (pos + 1) u) (comment : w.comment = false) (quoted : w.quoted = false)
    (btQuoted : w.btQuoted = false) (inHeredoc : w.inHeredoc = false) (free : '\n' ∉ between text w.start pos)
    (freeVal : '\n' ∉ w.val) (order : w.start ≤ pos) (lines : line = w.tokenLine ∧ skipped = w.before) :
    Tracked text prev (pos + 1) line skipped u := by
  obtain ⟨c,q,b,h,tokenLine,start,before⟩ := push.same
  refine .bare ⟨push.val,c.trans comment,q.trans quoted,b.trans btQuoted,h.trans inHeredoc,started,?_,?_,
    push.free freeVal,?_,?_,fun _ _ => push.escaped⟩
  · rw [push.finish]
    omega
  · rw [start,betweenNext order here,List.mem_append,List.mem_singleton,not_or]
    exact ⟨free,plain.symm⟩
  · rw [tokenLine,before]
    exact lines
  · rw [push.finish,betweenSelf,push.escaped]
    rfl

theorem spaceNot {c} (space : isWhitespace c = true) : c ≠ '\\' := by
  rintro rfl
  exact absurd space (by decide)

theorem plainNot {c} (plain : ¬ isWhitespace c = true) : c ≠ '\n' := by
  rintro rfl
  exact plain (by decide)

theorem gapNext {l s} {u : Word} (lead : Lead text prev pos line skipped w) (here : text.drop pos = ch::rest)
    (same : u = { w with escaped := u.escaped, comment := u.comment })
    (step : walk (line,skipped,w.escaped) ch = (l,s,u.escaped)) : Tracked text prev (pos + 1) l s u := by
  rw [same]
  refine .lead ⟨lead.val,lead.quoted,lead.btQuoted,lead.inHeredoc,fun p mem => ?_⟩
  obtain ⟨order,place⟩ := lead.counted p mem
  rw [betweenNext order here,List.foldl_append,place,List.foldl_cons,step]
  exact ⟨Nat.le_succ_of_le order,rfl⟩

theorem leadQuotes {u : Word} (lead : Lead text prev pos line skipped w) (here : text.drop pos = ch::rest)
    (plain : ch ≠ '\n') (mode : (u.quoted = true ∧ u.btQuoted = false) ∨ (u.quoted = false ∧ u.btQuoted = true))
    (same : u.val = w.val ∧ u.inHeredoc = w.inHeredoc) (start : u.start = pos) (tokenLine : u.tokenLine = line)
    (before : u.before = skipped) : Tracked text prev (pos + 1) line skipped u := by
  have empty : (between text pos (pos + 1)).count '\n' = 0 := by
    rw [betweenNext (Nat.le_refl pos) here,betweenSelf,List.nil_append,List.count_eq_zero,List.mem_singleton]
    exact plain.symm
  refine .quoted ⟨mode,same.2.trans lead.inHeredoc,leadStarts lead start tokenLine before,?_,?_⟩
  · rw [start,tokenLine,before,empty]
    rfl
  · rw [start,empty,same.1,lead.val]
    rfl

theorem leadSpace (lead : Lead text prev pos line skipped w) (here : text.drop pos = ch::rest)
    (space : isWhitespace ch = true) : After text prev pos (spaceStep pos line skipped w ch) := by
  rw [spaceStep]
  split
  · rename_i cr
    exact gapNext lead here rfl (walkPlain (by rw [cr]; decide) (spaceNot space) _)
  split
  · rename_i lf
    split
    · rename_i escaped
      rw [afterSpace,if_pos lead.val]
      refine gapNext lead here rfl ?_
      rw [walk,if_pos lf,if_pos escaped]
    · rename_i not_
      rw [afterSpace,if_pos lead.val]
      refine gapNext lead here rfl ?_
      have plain : w.escaped = false := by simpa using not_
      rw [walk,if_pos lf,if_neg not_,plain]
  · rename_i lf
    rw [afterSpace,if_pos lead.val]
    exact gapNext lead here rfl (walkPlain lf (spaceNot space) _)

theorem leadPlain (lead : Lead text prev pos line skipped w) (here : text.drop pos = ch::rest)
    (slash : ¬ (w.escaped = false ∧ ch = '\\')) (space : ¬ isWhitespace ch = true) :
    After text prev pos (plainStep pos line skipped w ch) := by
  rw [plainStep]
  split
  · refine gapNext lead here rfl ?_
    by_cases again : ch = '\\'
    · have escaped : w.escaped = true := by
        cases known : w.escaped
        · exact absurd ⟨known,again⟩ slash
        · rfl
      rw [again,walkSlash,escaped]
    · exact walkPlain (plainNot space) again _
  rename_i noComment
  rw [if_pos lead.val]
  have comment : w.comment = false := by
    cases known : w.comment
    · rfl
    · exact absurd (by rw [known]; rfl) noComment
  split
  · exact leadQuotes lead here (plainNot space) (.inl ⟨rfl,lead.btQuoted⟩) ⟨rfl,rfl⟩ rfl rfl rfl
  split
  · exact leadQuotes lead here (plainNot space) (.inr ⟨lead.quoted,rfl⟩) ⟨rfl,rfl⟩ rfl rfl rfl
  · have push := plainPushed { w with tokenLine := line, start := pos, before := skipped } pos (plainNot space)
    obtain ⟨-,-,-,-,tokenLine,start,before⟩ := push.same
    refine pushTracked push here (plainNot space) (leadStarts lead start tokenLine before) comment lead.quoted
      lead.btQuoted lead.inHeredoc ?_ ?_ (Nat.le_refl pos) ⟨rfl,rfl⟩
    · change '\n' ∉ between text pos pos
      rw [betweenSelf]
      exact List.not_mem_nil
    · change '\n' ∉ w.val
      rw [lead.val]
      exact List.not_mem_nil

theorem leadStep {out} (lead : Lead text prev pos line skipped w) (here : text.drop pos = ch::rest)
    (step : stepChar pos line skipped w ch = .ok out) : After text prev pos out := by
  have turn : stepChar pos line skipped w ch =
      if w.escaped = false ∧ ch = '\\' then .ok (.more { w with escaped := true } line skipped)
      else if isWhitespace ch then .ok (spaceStep pos line skipped w ch) else .ok (plainStep pos line skipped w ch) := by
    simp [stepChar,opensHeredoc,lead.val,lead.quoted,lead.btQuoted,lead.inHeredoc]
    rfl
  rw [turn] at step
  split at step
  · rename_i slash
    cases step
    exact gapNext lead here rfl (by rw [slash.2,walkSlash])
  split at step
  · rename_i space
    cases step
    exact leadSpace lead here space
  · rename_i slash space
    cases step
    exact leadPlain lead here slash space

section
variable (bare : Bare text prev pos line skipped w) (here : text.drop pos = ch::rest)
include bare here

theorem bareEnds {l s} (slash : ch ≠ '\\')
    (step : if ch = '\n' then walk (line,skipped,w.escaped) ch = (l,s,false) else l = line ∧ s = skipped) :
    After text prev pos (.token (w.bare pos ch) l s) := by
  have within {n : Nat} (le : w.start ≤ n) (last : n ≤ pos) : (between text w.start n).count '\n' = 0 := by
    have free := bare.free
    rw [List.count_eq_zero]
    rw [betweenAppend text le last,List.mem_append,not_or] at free
    exact free.1
  have unbroken : breaks text (w.bare pos ch) = 0 := by
    change (between text w.start (if ch = '\n' then w.finish else pos)).count '\n' = 0
    split
    · exact within bare.order.1 bare.order.2
    · exact within bare.started.order (Nat.le_refl pos)
  have place : counters text (w.bare pos ch) = (line,skipped,false) := by
    rw [counters,unbroken,bare.lines.1,bare.lines.2]
    rfl
  refine ⟨bare.started.link,⟨rfl,rfl,?_⟩,freshTracked ?_ ?_⟩
  · rw [unbroken]
    change w.val.count '\n' + 0 = 0
    rw [List.count_eq_zero.mpr bare.freeVal]
  · have := bare.order.2
    change (if ch = '\n' then w.finish else pos) ≤ pos + 1
    split <;> omega
  · rw [place]
    change (between text (if ch = '\n' then w.finish else pos) (pos + 1)).foldl walk (line,skipped,false) = (l,s,false)
    split at step
    · rename_i lf
      rw [if_pos lf,betweenNext bare.order.2 here,List.foldl_append,bare.counted]
      exact step
    · rename_i lf
      rw [if_neg lf,betweenNext (Nat.le_refl pos) here,betweenSelf,step.1,step.2]
      exact walkPlain lf slash _

/- A character that is passed over, or the backslash. -/
theorem barePassed {u : Word} (same : u = { w with escaped := u.escaped }) (plain : ch ≠ '\n')
    (counts : walk (line,skipped,w.escaped) ch = (line,skipped,u.escaped))
    (still : opensHeredoc w.val = true → w.heredocEscaped = false → u.escaped = false) :
    Tracked text prev (pos + 1) line skipped u := by
  rw [same]
  refine .bare ⟨bare.val,bare.comment,bare.quoted,bare.btQuoted,bare.inHeredoc,bare.started.next rfl rfl rfl,
    ⟨bare.order.1,Nat.le_succ_of_le bare.order.2⟩,?_,bare.freeVal,bare.lines,?_,still⟩
  · rw [betweenNext bare.started.order here,List.mem_append,List.mem_singleton,not_or]
    exact ⟨bare.free,plain.symm⟩
  · rw [betweenNext bare.order.2 here,List.foldl_append,bare.counted]
    exact counts

theorem barePush {u} (push : Pushed pos w u) (plain : ch ≠ '\n') : Tracked text prev (pos + 1) line skipped u := by
  obtain ⟨-,-,-,-,tokenLine,start,before⟩ := push.same
  exact pushTracked push here plain (bare.started.next start tokenLine before) bare.comment bare.quoted bare.btQuoted
    bare.inHeredoc bare.free bare.freeVal bare.started.order bare.lines

theorem bareOpening {out} (plain : w.escaped = false) (step : openingStep pos line skipped w ch = .ok out) :
    After text prev pos out := by
  rw [openingStep] at step
  split at step
  · rename_i space
    cases step
    refine bareEnds bare here (by rw [space]; decide) ?_
    rw [if_neg (by rw [space]; decide)]
    exact ⟨rfl,rfl⟩
  split at step
  · rename_i cr
    cases step
    exact barePassed bare here rfl (by rw [cr]; decide) (walkPlain (by rw [cr]; decide) (by rw [cr]; decide) _) bare.opening
  split at step
  · rename_i lf
    split at step
    · cases step
    split at step
    · cases step
    split at step
    · rename_i valid
      cases step
      have one : (between text w.start (pos + 1)).count '\n' = 1 := by
        rw [betweenNext bare.started.order here,lf,List.count_append,List.count_eq_zero.mpr bare.free]
        rfl
      refine .heredoc ⟨bare.quoted,bare.btQuoted,rfl,valid,bare.started.next rfl rfl rfl,⟨bare.lines.1,?_⟩,?_⟩
      · change skipped + 1 = w.before + (between text w.start (pos + 1)).count '\n'
        rw [one,bare.lines.2]
      · change 0 + 1 = (between text w.start (pos + 1)).count '\n'
        rw [one]
    · cases step
  · rename_i lf
    cases step
    exact barePush bare here (pushed w pos lf plain) lf

theorem bareSpace (space : isWhitespace ch = true) : After text prev pos (spaceStep pos line skipped w ch) := by
  rw [spaceStep]
  split
  · rename_i cr
    exact barePassed bare here rfl (by rw [cr]; decide) (walkPlain (by rw [cr]; decide) (spaceNot space) _) bare.opening
  split
  · rename_i lf
    split
    · rename_i escaped
      rw [afterSpace,if_neg bare.val]
      change After text prev pos (.token (w.bare pos ch) line (skipped + 1))
      refine bareEnds bare here (spaceNot space) ?_
      rw [if_pos lf,walk,if_pos lf,if_pos escaped]
    · rename_i not_
      rw [afterSpace,if_neg bare.val]
      change After text prev pos (.token (w.bare pos ch) (line + 1 + skipped) 0)
      refine bareEnds bare here (spaceNot space) ?_
      rw [if_pos lf,walk,if_pos lf,if_neg not_]
  · rename_i lf
    rw [afterSpace,if_neg bare.val]
    refine bareEnds bare here (spaceNot space) ?_
    rw [if_neg lf]
    exact ⟨rfl,rfl⟩

theorem bareStep {out} (step : stepChar pos line skipped w ch = .ok out) : After text prev pos out := by
  rw [stepChar] at step
  split at step
  · rename_i opens
    simp only [bare.quoted,bare.btQuoted,bare.inHeredoc,Bool.not_false,Bool.true_and,Bool.and_eq_true,
      Bool.not_eq_true'] at opens
    exact bareOpening bare here (bare.opening opens.2 opens.1) step
  rename_i closed
  rw [if_neg (by rw [bare.inHeredoc]; decide)] at step
  split at step
  · rename_i slash
    simp only [bare.btQuoted,Bool.not_false,Bool.and_true,Bool.and_eq_true,Bool.not_eq_true',beq_iff_eq] at slash
    cases step
    refine barePassed bare here rfl (by rw [slash.2]; decide) (by rw [slash.2,walkSlash]) fun opens escaped =>
      absurd ?_ closed
    simp [bare.quoted,bare.btQuoted,bare.inHeredoc,opens,escaped]
  rw [if_neg (by rw [bare.quoted,bare.btQuoted]; decide)] at step
  split at step
  · rename_i space
    cases step
    exact bareSpace bare here space
  · rename_i space
    cases step
    have word : ¬ (w.comment || (ch == '#' && w.val == [])) = true := by
      simp [bare.comment,bare.val]
    rw [plainStep,if_neg word,if_neg bare.val]
    exact barePush bare here (plainPushed w pos (plainNot space)) (plainNot space)

end

theorem closes {val quote l s} (started : Started text prev pos w)
    (lines : (l,s) = behind w.tokenLine w.before ((between text w.start (pos + 1)).count '\n'))
    (spelled : val.count '\n' + (if quote = .heredoc then 2 else 0) =
      if quote = .heredoc ∧ (between text w.start (pos + 1)).count '\n' = 1 then 2
      else (between text w.start (pos + 1)).count '\n') :
    After text prev pos (.token (makeToken w val quote (pos + 1)) l s) := by
  refine ⟨started.link,⟨rfl,rfl,spelled⟩,freshTracked (Nat.le_refl _) ?_⟩
  change (between text (pos + 1) (pos + 1)).foldl walk _ = _
  rw [betweenSelf]
  change ((behind w.tokenLine w.before ((between text w.start (pos + 1)).count '\n')).1,
    (behind w.tokenLine w.before ((between text w.start (pos + 1)).count '\n')).2,false) = _
  rw [← lines]

theorem countNext (started : Started text prev pos w) (here : text.drop pos = ch::rest) :
    (between text w.start (pos + 1)).count '\n' =
      (between text w.start pos).count '\n' + if ch = '\n' then 1 else 0 := by
  rw [betweenNext started.order here,List.count_append,List.count_singleton]
  simp only [beq_iff_eq]

theorem quotedStepTracked (now : Quoted text prev pos line skipped w) (here : text.drop pos = ch::rest) :
    After text prev pos (quotedStep pos line skipped w ch) := by
  obtain ⟨mode,inHeredoc,started,lines,count⟩ := now
  have next := countNext started here
  have onPush {val : Str} (same : val.count '\n' = w.val.count '\n') :
      After text prev pos (quotedPush line skipped w ch val) := by
    rw [quotedPush]
    split
    · rename_i lf
      rw [if_pos lf] at next
      refine .quoted ⟨mode,inHeredoc,started.next rfl rfl rfl,?_,?_⟩
      · change (line + 1 + skipped,0) = behind w.tokenLine w.before ((between text w.start (pos + 1)).count '\n')
        rw [next]
        rw [behind] at lines
        split at lines
        · rename_i zero
          cases lines
          congr 1
          omega
        · cases lines
          rfl
      · change (val ++ [ch]).count '\n' = (between text w.start (pos + 1)).count '\n'
        rw [next,List.count_append,same,count,lf]
        rfl
    · rename_i lf
      rw [if_neg lf] at next
      refine .quoted ⟨mode,inHeredoc,started.next rfl rfl rfl,?_,?_⟩
      · change (line,skipped) = behind w.tokenLine w.before ((between text w.start (pos + 1)).count '\n')
        rw [next]
        exact lines
      · change (val ++ [ch]).count '\n' = (between text w.start (pos + 1)).count '\n'
        rw [next,List.count_append,same,count,List.count_singleton,if_neg (by simpa using lf)]
  rw [quotedStep]
  split
  · apply onPush
    split
    · rfl
    · rw [List.count_append]
      rfl
  split
  · rename_i closing
    have plain : ch ≠ '\n' := by
      rintro rfl
      simp at closing
    rw [if_neg plain] at next
    refine closes started (by rw [next]; exact lines) ?_
    have other : (if w.quoted then Quote.double else Quote.backtick) ≠ .heredoc := by
      split <;> decide
    rw [if_neg other,if_neg fun both => other both.1,next]
    exact count
  · exact onPush rfl

theorem heredocStepTracked {out} (now : Heredoc text prev pos line skipped w) (here : text.drop pos = ch::rest)
    (step : heredocStep pos line skipped w ch = .ok out) : After text prev pos out := by
  obtain ⟨quoted,btQuoted,inHeredoc,valid,started,lines,count⟩ := now
  have next := countNext started here
  have skips : (if ch = '\n' then skipped + 1 else skipped) = w.before + (between text w.start (pos + 1)).count '\n' := by
    rw [next]
    split <;> omega
  have counts : (w.val ++ [ch]).count '\n' + 1 = (between text w.start (pos + 1)).count '\n' := by
    rw [List.count_append,List.count_singleton]
    simp only [beq_iff_eq]
    omega
  rw [heredocStep] at step
  split at step
  · rename_i ends
    cases done : finalizeHeredoc (w.val ++ [ch]) w.heredocMarker w.tokenLine with
    | error e =>
      rw [done] at step
      cases step
    | ok inner =>
      rw [done] at step
      have result := Except.ok.inj step
      rw [← result,skips]
      have inside := finalizeCount valid (List.isSuffixOf_iff_suffix.mp ends) done
      refine closes started ?_ ?_
      · rw [behind,if_neg (by omega)]
        congr 1
        omega
      · rw [if_pos rfl]
        split
        · omega
        · rename_i more
          have two : (between text w.start (pos + 1)).count '\n' ≠ 1 := fun one => more ⟨rfl,one⟩
          omega
  · cases step
    exact .heredoc ⟨quoted,btQuoted,inHeredoc,valid,started.next rfl rfl rfl,⟨lines.1,skips⟩,counts⟩

theorem trackedStep {out} (tracked : Tracked text prev pos line skipped w) (here : text.drop pos = ch::rest)
    (step : stepChar pos line skipped w ch = .ok out) : After text prev pos out := by
  cases tracked with
  | lead now => exact leadStep now here step
  | bare now => exact bareStep now here step
  | quoted now =>
    obtain ⟨mode,inHeredoc,started,lines,count⟩ := now
    have flags : (w.quoted || w.btQuoted) = true := by
      rcases mode with ⟨q,b⟩ | ⟨q,b⟩ <;> rw [q,b] <;> rfl
    rw [stepChar,if_neg (by rcases mode with ⟨q,b⟩ | ⟨q,b⟩ <;> simp [q,b]),if_neg (by rw [inHeredoc]; decide)] at step
    split at step
    · rename_i slash
      cases step
      simp only [Bool.and_eq_true,beq_iff_eq] at slash
      have next := countNext started here
      rw [if_neg (by rw [slash.2]; decide)] at next
      refine .quoted ⟨mode,inHeredoc,started.next rfl rfl rfl,?_,?_⟩
      · change (line,skipped) = behind w.tokenLine w.before ((between text w.start (pos + 1)).count '\n')
        rw [next]
        exact lines
      · change w.val.count '\n' = (between text w.start (pos + 1)).count '\n'
        rw [next]
        exact count
    · cases step
      exact quotedStepTracked ⟨mode,inHeredoc,started,lines,count⟩ here
  | heredoc now =>
    rw [stepHeredoc now.inHeredoc] at step
    exact heredocStepTracked now here step

end

section

inductive Chained (text : Str) : Option Placed → List Placed → Prop where
  | nil {prev} : Chained text prev []
  | cons {prev q l} (linked : ∀ p ∈ prev, Linked text p q) (spelled : Spelled text q) (next : Chained text (some q) l) :
      Chained text prev (q::l)

variable {text rest : Str} {prev : Option Placed} {pos line skipped : Nat} {w : Word}

theorem endChained {found} (tracked : Tracked text prev pos line skipped w)
    (done : atEnd pos line skipped w = .ok found) : Chained text prev found.toList := by
  rw [atEnd] at done
  split at done
  · cases done
    exact .nil
  rename_i val
  split at done
  · cases done
  rename_i outside
  cases done
  cases tracked with
  | lead now => exact absurd now.val val
  | bare now =>
    refine .cons now.started.link ⟨rfl,rfl,?_⟩ .nil
    have unbroken : breaks text (makeToken w w.val .none pos) = 0 := List.count_eq_zero.mpr now.free
    rw [unbroken]
    exact List.count_eq_zero.mpr now.freeVal
  | quoted now => exact .cons now.started.link ⟨rfl,rfl,now.count⟩ .nil
  | heredoc now => exact absurd now.inHeredoc outside

theorem lexChained {placed} (tracked : Tracked text prev pos line skipped w) (here : text.drop pos = rest)
    (done : lexFrom rest pos line skipped w = .ok placed) : Chained text prev placed := by
  induction rest generalizing prev pos line skipped w placed with
  | nil =>
    rw [lexFrom] at done
    cases found : atEnd pos line skipped w with
    | error e =>
      rw [found] at done
      cases done
    | ok last =>
      rw [found] at done
      cases done
      exact endChained tracked found
  | cons ch rest ih =>
    have next : text.drop (pos + 1) = rest := by
      rw [← List.drop_drop,here]
      rfl
    cases step : stepChar pos line skipped w ch with
    | error e =>
      rw [lexFault step] at done
      cases done
    | ok out =>
      have after := trackedStep tracked here step
      cases out with
      | more w line skipped =>
        rw [lexMore step] at done
        exact ih after next done
      | token q line skipped =>
        rw [lexToken step] at done
        obtain ⟨linked,spelled,fresh⟩ := after
        cases behind_ : lexFrom rest (pos + 1) line skipped (Word.fresh line) with
        | error e =>
          rw [behind_] at done
          cases done
        | ok later =>
          rw [behind_] at done
          cases done
          exact .cons linked spelled (ih fresh next behind_)

theorem chainedPair {placed i} {p q} (chained : Chained text prev placed) (first : placed[i]? = some p)
    (second : placed[i + 1]? = some q) : Linked text p q ∧ Spelled text p := by
  induction chained generalizing i with
  | nil => cases first
  | cons linked spelled next ih =>
    cases i with
    | zero =>
      cases first
      cases next with
      | nil => cases second
      | cons linked _ _ =>
        cases second
        exact ⟨linked _ rfl,spelled⟩
    | succ i => exact ih first second

end

def gap (text : Str) (p q : Placed) : Str := between text p.finish q.start

/- By how many lines the count runs ahead of the text behind a token: the escaped line ends before a token of
several lines are counted in it, and a heredoc without a line of its own is taken for one of two. -/
def ahead (text : Str) (p : Placed) : Int :=
  (if breaks text p = 0 then 0 else (p.before : Int)) -
    if p.token.quote = .heredoc ∧ breaks text p = 1 then 1 else 0

def Aligned (text : Str) (p q : Placed) : Prop :=
  (ahead text p = 0 ∧ (unescapedEnd false (gap text p q) = true → countedEnd false (gap text p q) = true)) ∨
  (0 < ahead text p ∧ unescapedEnd false (gap text p q) = true) ∨
  (ahead text p < 0 ∧ (unescapedEnd false (gap text p q) = true ↔ 2 ≤ linesPassed 0 (gap text p q)))

variable {text : Str} {p q : Placed}

theorem linkedLine (linked : Linked text p q) : q.token.line = (counters text p).1 +
    linesPassed (counters text p).2.1 (gap text p q) := by
  obtain ⟨e,counted⟩ := linked.counted
  have shifted := walkShift (gap text p q) (counters text p).1 0 (counters text p).2.1 false
  rw [Nat.add_zero] at shifted
  have same : (between text p.finish q.start).foldl walk (counters text p) =
      (gap text p q).foldl walk ((counters text p).1,(counters text p).2.1,false) := rfl
  rw [same,shifted] at counted
  exact (congrArg Prod.fst counted).symm

theorem spelledAhead (spelled : Spelled text p) :
    ((counters text p).1 : Int) = p.token.line + p.token.numLineBreaks + ahead text p := by
  rw [spelled.lines,ahead]
  change (((behind p.token.line p.before (breaks text p)).1 : Nat) : Int) = _
  rw [behind]
  by_cases zero : breaks text p = 0
  · rw [zero]
    simp
  · rw [if_neg zero]
    split
    · rename_i one
      omega
    · push_cast
      omega

theorem lineExact (linked : Linked text p q) (spelled : Spelled text p) :
    (p.token.line + p.token.numLineBreaks < q.token.line ↔ unescapedEnd false (gap text p q) = true) ↔
      Aligned text p q := by
  have line := linkedLine linked
  have place := spelledAhead spelled
  have counted := linesPassedIff (counters text p).2.1 (gap text p q)
  have weaker := @countedUnescaped false false (gap text p q) id
  have order : p.token.line + p.token.numLineBreaks < q.token.line ↔
      0 < ahead text p + linesPassed (counters text p).2.1 (gap text p q) := by omega
  have behindOne (low : ahead text p < 0) : ahead text p = -1 ∧ (counters text p).2.1 = 0 := by
    rw [ahead] at low ⊢
    change _ ∧ (behind p.token.line p.before (breaks text p)).2 = 0
    rw [behind]
    by_cases nothing : breaks text p = 0
    · simp only [nothing,if_true] at low
      simp at low
    · simp only [nothing,if_false] at low ⊢
      split at low
      · rename_i one
        rw [if_pos one]
        exact ⟨by omega,trivial⟩
      · omega
  rw [order,Aligned]
  rcases lt_trichotomy (ahead text p) 0 with low | nothing | high
  · obtain ⟨one,zero⟩ := behindOne low
    rw [zero,one]
    have shift : (0 : Int) < -1 + (linesPassed 0 (gap text p q) : Nat) ↔ 2 ≤ linesPassed 0 (gap text p q) := by omega
    rw [shift]
    have notZero : (-1 : Int) ≠ 0 := by decide
    have notHigh : ¬ (0 : Int) < -1 := by decide
    have isLow : (-1 : Int) < 0 := by decide
    simp only [notZero,notHigh,isLow,false_and,true_and,false_or]
    exact Iff.comm
  · rw [nothing]
    have shift : (0 : Int) < 0 + (linesPassed (counters text p).2.1 (gap text p q) : Nat) ↔
        countedEnd false (gap text p q) = true := by
      rw [← counted]
      omega
    rw [shift]
    simp only [lt_irrefl,false_and,or_false,true_and]
    exact ⟨fun same => same.mpr,fun back => ⟨weaker,back⟩⟩
  · have shift : 0 < ahead text p + (linesPassed (counters text p).2.1 (gap text p q) : Nat) ↔ True := by
      simp only [iff_true]
      omega
    rw [shift]
    have notZero : ahead text p ≠ 0 := by omega
    have notLow : ¬ ahead text p < 0 := by omega
    simp only [notZero,notLow,high,false_and,or_false,false_or,true_and,true_iff]

def named (filename : Str) (p : Placed) : Token := { p.token with file := filename }

theorem namedNext (filename : Str) (first : p.token.imports = []) (second : q.token.imports = []) :
    isNextOnNewLine (named filename p) (named filename q) =
      decide (p.token.line + p.token.numLineBreaks < q.token.line) := by
  change (if filename ≠ filename then _ else if p.token.imports.length ≠ q.token.imports.length then _ else
    if (p.token.imports.zip q.token.imports).any _ then _ else _) = _
  rw [first,second]
  simp
  rfl

theorem chainedImports {placed prev} (chained : Chained text prev placed) : ∀ p ∈ placed, p.token.imports = [] := by
  induction chained with
  | nil => simp
  | cons linked spelled next ih =>
    rw [List.forall_mem_cons]
    exact ⟨spelled.imports,ih⟩

theorem placedChained {expanded placed} (done : placedTokens expanded = .ok placed) :
    Chained (textRead expanded) none placed := by
  rw [placedLexed] at done
  have start : Tracked (textRead expanded) none 0 1 0 (Word.fresh 1) := by
    refine .lead ⟨rfl,rfl,rfl,rfl,?_⟩
    rintro p ⟨⟩
  exact lexChained start List.drop_zero done

theorem newLineExact (env : Str → Option Str) (input filename : Str) (tokens : List Token)
    (lexed : tokenize env input filename = .ok tokens) :
    ∃ expanded placed, replaceEnvVars env input = .ok expanded ∧ placedTokens expanded = .ok placed ∧
      tokens = placed.map (named filename) ∧ ∀ i p q, placed[i]? = some p → placed[i + 1]? = some q →
        ((isNextOnNewLine (named filename p) (named filename q) = true ↔
          unescapedEnd false (gap (textRead expanded) p q) = true) ↔ Aligned (textRead expanded) p q) := by
  obtain ⟨expanded,done⟩ := replaceEnvTotal env input
  rw [tokenize,done,okBind] at lexed
  cases found : placedTokens expanded with
  | error e =>
    rw [found] at lexed
    cases lexed
  | ok placed =>
    rw [found] at lexed
    refine ⟨expanded,placed,done,found,(Except.ok.inj lexed).symm,fun i p q first second => ?_⟩
    have chained := placedChained found
    obtain ⟨linked,spelled⟩ := chainedPair chained first second
    rw [namedNext filename spelled.imports (chainedImports chained q (List.mem_of_getElem? second)),decide_eq_true_eq]
    exact lineExact linked spelled

theorem newLineRead :
    ∃ expanded placed, replaceEnvVars (fun _ => none) (str "a b\nc") = .ok expanded ∧ placedTokens expanded = .ok placed ∧
      [(⟨str "f",[],1,str "a",.none,[],[]⟩ : Token),⟨str "f",[],1,str "b",.none,[],[]⟩,⟨str "f",[],2,str "c",.none,[],[]⟩] =
        placed.map (named (str "f")) ∧ ∀ i p q, placed[i]? = some p → placed[i + 1]? = some q →
        ((isNextOnNewLine (named (str "f") p) (named (str "f") q) = true ↔
          unescapedEnd false (gap (textRead expanded) p q) = true) ↔ Aligned (textRead expanded) p q) :=
  newLineExact (fun _ => none) (str "a b\nc") (str "f") _ (by decide +kernel)

def verdicts (text : Str) : Lexing (List (Bool × Bool)) := do
  let placed ← placedTokens text
  return placed.zipWith (fun p q => (isNextOnNewLine p.token q.token,unescapedEnd false (gap (textRead text) p q))) placed.tail

/- A token of two lines behind an escaped line end puts the next one on a new line; a backslash in a comment
takes the line end away, and so does a heredoc without a line of its own. -/
theorem linesMiscounted : verdicts (str "a \\\n\"x\ny\" b") = .ok [(false,false),(true,false)] ∧
    verdicts (str "a # C:\\dir\nb") = .ok [(false,true)] ∧ verdicts (str "<<E\nxE\nb") = .ok [(false,true)] := by
  decide +kernel

end ZeroServe.Caddyfile
