import ZeroServe.BodyDrip

/-! What `read_headers` makes of a stream, by the place of its first blank line. The size limit is tested only while
no blank line is buffered, so between one byte and a whole read behind the limit the cuts decide. -/
namespace ZeroServe.H1
open ByteText ByteSource

def blankLine : Bytes := crlf ++ crlf

section
variable {stream : Bytes} {idx : Nat}

theorem headFound {P : Conn → Prop} (found : find blankLine stream = some idx)
    (turn : ∀ c, P c → c.unread = stream → c.buf.length < idx + 4 →
      c.buf.length ≤ maxHeaderSize ∧ ∃ n c', readMore c = (.ok n,c') ∧ P c') {fuel} {c}
    (enough : c.io.bytes.length < fuel) (holds : P c) (same : c.unread = stream) :
    ∃ c', readUntil blankLine maxHeaderSize false .headersTooLarge fuel c = (.ok (some (stream.take idx)),c') ∧
      c'.unread = stream.drop (idx + 4) := by
  induction fuel generalizing c with
  | zero => omega
  | succ fuel ih =>
    unfold readUntil
    cases buffered : find blankLine c.buf with
    | some i =>
      have here : i = idx := by
        rw [← same,Conn.unread,findAppend buffered] at found
        exact Option.some.inj found
      have bound := findBound buffered
      subst here
      refine ⟨{c with buf := c.buf.drop (i + 4)},?_,?_⟩
      · rw [← same,Conn.unread,List.take_append_of_le_length (by omega)]
        rfl
      · rw [← same]
        exact (List.drop_append_of_le_length bound).symm
    | none =>
      have open_ : c.buf.length < idx + 4 := by
        by_contra inside
        rw [← same] at found
        rw [findWithin (by decide) found (Nat.le_of_not_lt inside)] at buffered
        cases buffered
      obtain ⟨room,n,c1,more,still⟩ := turn c holds same open_
      have sizes := fillBufOk more
      rw [if_neg (by omega),more]
      cases n with
      | zero =>
        have whole : c.unread = c.buf := by rw [Conn.unread,(sizes.2.2 rfl).2,List.append_nil]
        rw [← same,whole,buffered] at found
        cases found
      | succ n => exact ih (by omega) still ((fillBufUnread more).trans same)

theorem headMissed {P : Source → Prop} {step}
    (reads : ∀ s, P s → ∃ got s', pull readBufSize s = (some got,s') ∧ P s' ∧ got.length ≤ step)
    (far : ∀ idx, find blankLine stream = some idx → maxHeaderSize + step < idx + 4) (filled : stream ≠ []) {fuel} {c}
    (holds : P c.io) (within : c.buf.length ≤ maxHeaderSize + step) (same : c.unread = stream) :
    ∃ e c', readUntil blankLine maxHeaderSize false .headersTooLarge fuel c = (.error e,c') := by
  induction fuel generalizing c with
  | zero => exact ⟨_,_,rfl⟩
  | succ fuel ih =>
    unfold readUntil
    cases buffered : find blankLine c.buf with
    | some i =>
      have behind := far i (same ▸ findAppend buffered)
      have bound : i + 4 ≤ c.buf.length := findBound buffered
      omega
    | none =>
      dsimp only
      split
      · exact ⟨_,_,rfl⟩
      · rename_i room
        obtain ⟨got,io,pulled,still,few⟩ := reads c.io holds
        have more : readMore c = (.ok got.length,⟨c.buf ++ got,io⟩) := by
          rw [readMore,fillBuf,show max readBufSize 1 = readBufSize from rfl,pulled]
        have sizes := fillBufOk more
        rw [more]
        cases size : got.length with
        | zero =>
          obtain ⟨kept,gone⟩ := sizes.2.2 size
          have full : c.buf ≠ [] := by
            intro empty
            exact filled (by rw [← same,Conn.unread,empty,gone]; rfl)
          dsimp only at kept ⊢
          rw [kept]
          exact ⟨_,_,if_neg full⟩
        | succ n =>
          refine ih (c := ⟨c.buf ++ got,io⟩) still ?_ ((fillBufUnread more).trans same)
          omega

end

theorem headTaken {c idx} (steady : Steady c.io) (found : find blankLine c.unread = some idx)
    (small : idx + 4 ≤ maxHeaderSize + 1) :
    ∃ c', readHeaders c = (.ok (some (c.unread.take idx)),c') ∧ c'.unread = c.unread.drop (idx + 4) := by
  refine headFound (P := fun c => Steady c.io) found ?_ (Nat.lt_succ_self _) steady rfl
  intro c steady _ open_
  obtain ⟨n,c',more,still⟩ := fillBufSteady readBufSize steady
  exact ⟨by omega,n,c',more,still⟩

theorem headReached {s idx} (found : find blankLine s = some idx) (near : idx + 4 ≤ maxHeaderSize + readBufSize) :
    ∃ c', readHeaders ⟨[],⟨s,[]⟩⟩ = (.ok (some (s.take idx)),c') ∧ c'.unread = s.drop (idx + 4) := by
  refine headFound (P := fun c => c.io.grants = [] ∧ ((∃ j, c.buf.length = readBufSize * j) ∨ c.io.bytes = []))
    found ?_ (Nat.lt_succ_self _) ⟨rfl,.inl ⟨0,rfl⟩⟩ rfl
  rintro c ⟨uncut,filled⟩ same open_
  have bound : idx + 4 ≤ s.length := findBound found
  have left : c.io.bytes ≠ [] := by
    intro gone
    rw [← same,Conn.unread,gone,List.append_nil] at bound
    omega
  obtain ⟨j,turns⟩ := filled.resolve_right left
  have pulled : pull readBufSize c.io = (some (c.io.bytes.take readBufSize),⟨c.io.bytes.drop readBufSize,[]⟩) := by
    rw [pull,uncut]
  refine ⟨?_,_,_,by rw [readMore,fillBuf,show max readBufSize 1 = readBufSize from rfl,pulled],rfl,?_⟩
  · simp only [maxHeaderSize,readBufSize] at turns near ⊢
    omega
  · by_cases more : readBufSize ≤ c.io.bytes.length
    · refine .inl ⟨j + 1,?_⟩
      rw [List.length_append,turns,List.length_take,Nat.min_eq_left more]
      rfl
    · exact .inr (List.drop_of_length_le (Nat.le_of_not_le more))

theorem headRefused {s} (steady : Steady s) (filled : s.bytes ≠ [])
    (far : ∀ idx, find blankLine s.bytes = some idx → maxHeaderSize + readBufSize < idx + 4) :
    ∃ e c', readHeaders ⟨[],s⟩ = (.error e,c') := by
  refine headMissed (P := Steady) ?_ far filled steady (Nat.zero_le _) rfl
  intro s steady
  obtain ⟨got,s',pulled,still⟩ := pullSteady readBufSize steady
  exact ⟨got,s',pulled,still,(pullBytes pulled).2⟩

theorem headDripped {s} (filled : s ≠ []) (far : ∀ idx, find blankLine s = some idx → maxHeaderSize + 1 < idx + 4) :
    ∃ e c', readHeaders (dripped s) = (.error e,c') :=
  headMissed (P := Drips) (fun _ drips => pullDrips readBufSize drips (by decide)) far filled
    (drippedDrip s).drips (Nat.zero_le _) rfl

theorem headNone {s} (steady : Steady s) (empty : s.bytes = []) :
    ∃ c', readHeaders ⟨[],s⟩ = (.ok none,c') ∧ c'.unread = [] := by
  obtain ⟨n,c',more,_⟩ := fillBufSteady readBufSize (c := ⟨[],s⟩) steady
  have sizes := fillBufOk more
  have none : n = 0 := by
    rw [empty] at sizes
    exact (Nat.eq_zero_of_add_eq_zero sizes.2.1.symm).1
  subst none
  have kept := (sizes.2.2 rfl).1
  refine ⟨c',?_,by rw [fillBufUnread more,Conn.unread,empty]; rfl⟩
  rw [readHeaders,readUntil]
  rw [readMore,more]
  exact if_pos kept

end ZeroServe.H1
