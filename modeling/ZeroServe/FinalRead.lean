import ZeroServe.HeadSplits

/-! `next_final_response` against the stream it reads: it succeeds, on every way the bytes can come, exactly if a
final head stands behind few enough interim ones and each head ends within the size limit. -/
namespace ZeroServe.H1
open ByteText ByteSource

section
variable {α : Type} {parse : Bytes → Except HttpError α} {interim : α → Bool} {P : Source → Prop}
  (reads : ∀ cap s got s', pull cap s = (got,s') → P s → P s')
include reads

theorem readMoreKeeps {c c' r} (h : readMore c = (r,c'))
    (holds : P c.io) : P c'.io := by
  unfold readMore fillBuf at h
  split at h <;> cases h <;> exact reads _ _ _ _ ‹_› holds

theorem readUntilKeeps {pat limit} {capped tooBig fuel}
    {c c' r} (h : readUntil pat limit capped tooBig fuel c = (r,c')) (holds : P c.io) : P c'.io := by
  induction fuel generalizing c with
  | zero =>
    cases h
    exact holds
  | succ fuel ih =>
    unfold readUntil at h
    split at h
    · split at h <;> cases h <;> exact holds
    · split at h
      · cases h
        exact holds
      · split at h
        · rename_i more
          cases h
          exact readMoreKeeps reads more holds
        · rename_i more
          have still := readMoreKeeps reads more holds
          split at h <;> cases h <;> exact still
        · rename_i more
          exact ih h (readMoreKeeps reads more holds)

theorem messageKeeps {c c' r}
    (h : nextMessage parse c = (r,c')) (holds : P c.io) : P c'.io := by
  unfold nextMessage at h
  split at h <;> cases h <;> exact readUntilKeeps reads ‹_› holds

theorem finalKeeps {left} {c c' r}
    (h : nextFinal (nextMessage parse) interim left c = (r,c')) (holds : P c.io) : P c'.io := by
  induction left generalizing c with
  | zero =>
    cases h
    exact holds
  | succ left ih =>
    unfold nextFinal at h
    split at h
    · cases h
      exact messageKeeps reads ‹_› holds
    · cases h
      exact messageKeeps reads ‹_› holds
    · rename_i v c1 read
      have still := messageKeeps reads read holds
      split at h
      · exact ih h still
      · cases h
        exact still

end

theorem pullLasts (cap : Nat) (s : Source) (got : Option Bytes) (s' : Source) (h : pull cap s = (got,s'))
    (steady : Steady s) : Steady s' := by
  obtain ⟨got',s1,pulled,still⟩ := pullSteady cap steady
  cases h.symm.trans pulled
  exact still

theorem pullFewer (n cap : Nat) (s : Source) (got : Option Bytes) (s' : Source) (h : pull cap s = (got,s'))
    (few : s.bytes.length ≤ n) : s'.bytes.length ≤ n := by
  cases got with
  | none =>
    rw [pullFault h]
    exact few
  | some got =>
    rw [(pullBytes h).1,List.length_append] at few
    omega

section
variable {α : Type} (parse : Bytes → Except HttpError α) (interim : α → Bool)

def AnswerWhole : Nat → Bytes → Prop
  | 0,_ => False
  | n+1,s => ∃ idx v, find blankLine s = some idx ∧ idx + 4 ≤ maxHeaderSize + 1 ∧
      parse (s.take idx) = .ok v ∧ (interim v = true → AnswerWhole n (s.drop (idx + 4)))

variable {parse interim}

theorem answerWholeMore {n m} {s} (few : n ≤ m) (whole : AnswerWhole parse interim n s) :
    AnswerWhole parse interim m s := by
  induction n generalizing m s with
  | zero => exact whole.elim
  | succ n ih =>
    obtain ⟨idx,v,found,small,parsed,later⟩ := whole
    obtain ⟨m,rfl⟩ : ∃ k, m = k + 1 := ⟨m - 1,by omega⟩
    exact ⟨idx,v,found,small,parsed,fun more => ih (by omega) (later more)⟩

theorem finalWhole {n left} {c} (few : n ≤ left) (steady : Steady c.io) (whole : AnswerWhole parse interim n c.unread) :
    ∃ v c', nextFinal (nextMessage parse) interim left c = (.ok (some v),c') := by
  induction n generalizing left c with
  | zero => exact whole.elim
  | succ n ih =>
    obtain ⟨idx,v,found,small,parsed,later⟩ := whole
    obtain ⟨left,rfl⟩ : ∃ k, left = k + 1 := ⟨left - 1,by omega⟩
    obtain ⟨c1,read,rest⟩ := headTaken steady found small
    have still := readUntilKeeps pullLasts read steady
    rw [nextFinal,messageTaken read,parsed]
    change ∃ w c', (if interim v then nextFinal (nextMessage parse) interim left c1 else (.ok (some v),c1)) =
      (.ok (some w),c')
    split
    · rename_i more
      exact ih (by omega) still (by rw [rest]; exact later more)
    · exact ⟨v,c1,rfl⟩

theorem finalDripped {left} {c c' v} (drip : Drip c)
    (h : nextFinal (nextMessage parse) interim left c = (.ok (some v),c')) :
    AnswerWhole parse interim left c.unread := by
  induction left generalizing c with
  | zero => cases h
  | succ left ih =>
    obtain ⟨⟨r,c1⟩,read⟩ : ∃ r, readHeaders c = r := ⟨_,rfl⟩
    unfold nextFinal at h
    cases r with
    | error e =>
      rw [messageRefused read] at h
      cases h
    | ok head =>
      cases head with
      | none =>
        rw [nextMessage,read] at h
        cases h
      | some raw =>
        obtain ⟨cut,place⟩ := readUntilSpec read
        have absent : find blankLine c.buf = none := by rw [drip.empty]; rfl
        obtain ⟨small,still⟩ := dripUntil (by decide) drip.drips absent read
        have front : c.unread.take raw.length = raw := by rw [cut,List.append_assoc,List.take_left]
        have rest : c.unread.drop (raw.length + 4) = c1.unread := by
          rw [cut]
          exact List.drop_left' (List.length_append)
        rw [messageTaken read] at h
        cases parsed : parse raw with
        | error e =>
          rw [parsed] at h
          cases h
        | ok w =>
          rw [parsed] at h
          refine ⟨raw.length,w,place,small,by rw [front,parsed],fun more => ?_⟩
          change (if interim w then nextFinal (nextMessage parse) interim left c1 else (.ok (some w),c1)) =
            (.ok (some v),c') at h
          rw [if_pos more] at h
          rw [rest]
          exact ih still h

end

theorem readUntilFirst {pat limit} {capped tooBig fuel} {s io got} (filled : pat ≠ [])
    (pulled : pull readBufSize s = (some got,io)) (more : got ≠ []) :
    readUntil pat limit capped tooBig (fuel + 1) ⟨[],s⟩ = readUntil pat limit capped tooBig fuel ⟨got,io⟩ := by
  have absent : find pat [] = none := by
    cases found : find pat [] with
    | none => rfl
    | some i =>
      have bound := findBound found
      rw [List.length_nil,Nat.le_zero,Nat.add_eq_zero_iff] at bound
      exact absurd (List.length_eq_zero_iff.mp bound.2) filled
  rw [readUntil,absent]
  rw [readMore,fillBuf,show max readBufSize 1 = readBufSize from rfl,pulled]
  cases got with
  | nil => exact absurd rfl more
  | cons x xs => rfl

theorem finalFirst {α : Type} {parse : Bytes → Except HttpError α} {interim : α → Bool} {left} {s io got c' r}
    (pulled : pull readBufSize s = (some got,io)) (more : got ≠ [])
    (h : nextFinal (nextMessage parse) interim (left + 1) ⟨[],s⟩ = (r,c')) : c'.io.bytes ≠ s.bytes := by
  have shorter : io.bytes.length < s.bytes.length := by
    have given := List.length_pos_of_ne_nil more
    rw [(pullBytes pulled).1,List.length_append]
    omega
  suffices c'.io.bytes.length ≤ io.bytes.length by
    intro same
    rw [same] at this
    omega
  have reads := pullFewer io.bytes.length
  have first : ∀ {r : Except HttpError (Option Bytes)} {c : Conn}, readHeaders ⟨[],s⟩ = (r,c) →
      c.io.bytes.length ≤ io.bytes.length := by
    intro r c read
    rw [readHeaders,readUntilFirst (by decide) pulled more] at read
    exact readUntilKeeps (P := fun s => s.bytes.length ≤ io.bytes.length) reads read le_rfl
  have one : ∀ {r : Except HttpError (Option α)} {c : Conn}, nextMessage parse ⟨[],s⟩ = (r,c) →
      c.io.bytes.length ≤ io.bytes.length := by
    intro r c read
    unfold nextMessage at read
    split at read <;> cases read <;> exact first ‹_›
  unfold nextFinal at h
  split at h
  · cases h
    exact one ‹_›
  · cases h
    exact one ‹_›
  · rename_i v c1 read
    split at h
    · exact finalKeeps (P := fun s => s.bytes.length ≤ io.bytes.length) reads h (one read)
    · cases h
      exact one read

def brokenOff (s : Bytes) : Source := ⟨s,[some 0,none]⟩

theorem brokenPull {x xs} : pull readBufSize (brokenOff (x::xs)) = (some [x],⟨xs,[none]⟩) := rfl

theorem brokenFails {α : Type} (parse : Bytes → Except HttpError α) (interim : α → Bool) (left : Nat) (x : UInt8)
    (xs : Bytes) : ∃ e c', nextFinal (nextMessage parse) interim left ⟨[],brokenOff (x::xs)⟩ = (.error e,c') := by
  cases left with
  | zero => exact ⟨_,_,rfl⟩
  | succ left =>
    have read : readHeaders ⟨[],brokenOff (x::xs)⟩ = (.error .io,⟨[x],⟨xs,[]⟩⟩) := by
      have absent : find (crlf ++ crlf) [x] = none := by
        cases found : find (crlf ++ crlf) [x] with
        | none => rfl
        | some i =>
          have bound := findBound found
          change i + 4 ≤ 1 at bound
          omega
      change readUntil (crlf ++ crlf) maxHeaderSize false .headersTooLarge (xs.length + 1) ⟨[x],⟨xs,[none]⟩⟩ = _
      rw [readUntil,absent]
      rfl
    rw [nextFinal,messageRefused read]
    exact ⟨_,_,rfl⟩

end ZeroServe.H1
