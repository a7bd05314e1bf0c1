import ZeroServe.BodyDecode

/-! What the readers of a connection hand over when no read fails, as a function of the unread bytes alone. -/
namespace ZeroServe.H1
open ByteText ByteSource ChunkCoding

def LineRead (c : Conn) : Except HttpError (Option Bytes) × Conn → Prop
  | (r,c') => match find crlf c.unread with
    | some idx => r = .ok (some (c.unread.take idx)) ∧ c'.unread = c.unread.drop (idx + 2) ∧
        Steady c'.io
    | none => r = .error (noLine c.unread) ∨ r = .ok none ∧ c.unread = []

def FirstFits (s : Bytes) : Prop := ∀ idx, find crlf s = some idx → idx < maxLineSize

theorem onLineFits {s} {next : Bytes → Bytes → Reading} (fits : LinesFit (onLine s next)) : FirstFits s := by
  intro idx found
  have bound := findBound found
  have size : (s.take idx).length = idx := by rw [List.length_take]; omega
  have mem : s.take idx ∈ (onLine s next).lines := by
    unfold onLine
    rw [found]
    dsimp only
    split <;> exact List.mem_cons_self
  have short := fits _ mem
  rwa [size] at short

theorem onLineFound {s idx} (found : find crlf s = some idx) (fits : FirstFits s) (next : Bytes → Bytes → Reading) :
    onLine s next = .after [s.take idx] [] (next (s.take idx) (s.drop (idx + 2))) := by
  have short := fits idx found
  rw [onLine,found]
  exact if_neg (by omega)

theorem onLineNone {s} (found : find crlf s = none) (next : Bytes → Bytes → Reading) :
    onLine s next = .stop (noLine s) := by
  rw [onLine,found]

theorem crowdedNone {c : Conn} (fits : FirstFits c.unread) (absent : find crlf c.buf = none)
    (crowded : maxLineSize < c.buf.length) : find crlf c.unread = none := by
  cases found : find crlf c.unread with
  | none => rfl
  | some idx =>
    have short := fits idx found
    rw [findFront found (by omega)] at absent
    cases absent

theorem noLineLong {c : Conn} (crowded : maxLineSize < c.buf.length) : noLine c.unread = .lineTooLong := by
  refine if_pos ?_
  rw [Conn.unread,List.length_append]
  omega

theorem readUntilLine {fuel} {c : Conn} (enough : c.io.bytes.length < fuel) (steady : Steady c.io)
    (fits : FirstFits c.unread) : LineRead c (readUntil crlf maxLineSize true .lineTooLong fuel c) := by
  induction fuel generalizing c with
  | zero => omega
  | succ fuel ih =>
    unfold readUntil
    cases buffered : find crlf c.buf with
    | some idx =>
      have found : find crlf c.unread = some idx := findAppend buffered
      have bound := findBound buffered
      simp only [crlf,List.length_cons,List.length_nil] at bound
      have short := fits idx found
      dsimp only
      rw [if_neg (by simp only [Bool.true_and,decide_eq_true_eq]; omega)]
      simp only [LineRead,found]
      refine ⟨?_,?_,steady⟩
      · rw [Conn.unread,List.take_append_of_le_length (by omega)]
      · simp only [Conn.unread,crlf,List.length_cons,List.length_nil]
        rw [List.drop_append_of_le_length (by omega)]
    | none =>
      dsimp only
      split
      · rename_i crowded
        simp only [LineRead,crowdedNone fits buffered crowded]
        exact .inl (by rw [noLineLong crowded])
      · rename_i room
        obtain ⟨n,c1,more,still⟩ := fillBufSteady readBufSize steady
        have same := fillBufUnread more
        have sizes := fillBufOk more
        rw [readMore,more]
        cases n with
        | zero =>
          obtain ⟨kept,gone⟩ := sizes.2.2 rfl
          have whole : c.unread = c.buf := by rw [Conn.unread,gone,List.append_nil]
          simp only [kept]
          split
          · rename_i empty
            have absent : find crlf c.unread = none := by rw [whole,buffered]
            simp only [LineRead,absent]
            exact .inr ⟨by simp,by rw [whole,empty]⟩
          · have absent : find crlf c.unread = none := by rw [whole,buffered]
            simp only [LineRead,absent]
            refine .inl ?_
            rw [noLine,whole,if_neg room]
        | succ n =>
          have rest := ih (c := c1) (by omega) still (same ▸ fits)
          simpa only [LineRead,same] using rest

theorem readLineRead {c} (steady : Steady c.io) (fits : FirstFits c.unread) :
    LineRead c (readLine c) := readUntilLine (Nat.lt_succ_self _) steady fits

theorem pieceCut {n} (piece s : Bytes) (within : piece.length ≤ n) :
    (piece ++ s).take n = piece ++ s.take (n - piece.length) ∧ (piece ++ s).drop n = s.drop (n - piece.length) := by
  rw [List.take_append,List.drop_append,List.take_of_length_le within, List.drop_eq_nil_of_le within]
  exact ⟨rfl,rfl⟩

theorem readExactLoopMeets (len fuel : Nat) (out : Bytes) {c} (steady : Steady c.io) (within : out.length ≤ len)
    (enough : len - out.length < fuel) : if len ≤ out.length + c.unread.length then
      ∃ c', readExactLoop len fuel out c = (.ok (out ++ c.unread.take (len - out.length)),c') ∧
        c'.unread = c.unread.drop (len - out.length) ∧ Steady c'.io
    else ∃ c', readExactLoop len fuel out c = (.error .unexpectedEof,c') := by
  induction fuel generalizing out c with
  | zero => omega
  | succ fuel ih =>
    unfold readExactLoop
    by_cases full : len ≤ out.length
    · have none : len - out.length = 0 := by omega
      rw [if_pos (by omega),if_pos full,none]
      exact ⟨c,by simp,by simp,steady⟩
    rw [if_neg full]
    by_cases buffered : c.buf ≠ []
    · rw [if_pos buffered]
      have positive := List.length_pos_iff.mpr buffered
      generalize count : min c.buf.length (len - out.length) = k
      have size : (c.buf.take k).length = k := by rw [List.length_take]; omega
      have cut := takeCut k c
      have grown : (out ++ c.buf.take k).length = out.length + k := by
        rw [List.length_append,size]
      have step := ih (out ++ c.buf.take k) (c := {c with buf := c.buf.drop k}) steady
        (by omega) (by omega)
      have total : c.unread.length = k + (c.consume k).unread.length := by
        rw [cut,List.length_append,size]
      simp only [grown] at step
      change if len ≤ out.length + k + (c.consume k).unread.length then _ else _ at step
      rw [total,← Nat.add_assoc]
      split
      · rename_i there
        rw [if_pos there] at step
        obtain ⟨c',read,left,still⟩ := step
        obtain ⟨front,back⟩ := pieceCut (c.buf.take k) (c.consume k).unread
          (n := len - out.length) (by omega)
        refine ⟨c',?_,?_,still⟩
        · rw [read,cut,front,size,List.append_assoc,Nat.sub_add_eq]
          rfl
        · rw [left,cut,back,size,Nat.sub_add_eq]
          rfl
      · rename_i short
        rw [if_neg short] at step
        exact step
    · rw [if_neg buffered]
      have empty : c.buf = [] := by simpa using buffered
      have whole : c.unread = c.io.bytes := by rw [Conn.unread,empty,List.nil_append]
      obtain ⟨got,io,pulled,still⟩ := pullSteady (min readBufSize (len - out.length)) steady
      have room : 0 < min readBufSize (len - out.length) := by
        have : 0 < readBufSize := by decide
        omega
      rw [pulled]
      cases got with
      | nil =>
        have gone := (pullEnd room pulled).1
        rw [whole,gone,if_neg (by simpa using full)]
        exact ⟨_,rfl⟩
      | cons x xs =>
        dsimp only
        obtain ⟨cut,small⟩ := pullBytes pulled
        have grown : (out ++ x::xs).length = out.length + (x::xs).length := List.length_append
        have count : 0 < (x::xs).length := by simp
        generalize (x::xs) = got at *
        have step := ih (out ++ got) (c := {c with io}) still (by omega) (by omega)
        have after : ({c with io} : Conn).unread = io.bytes := by rw [Conn.unread,empty,List.nil_append]
        rw [after,grown] at step
        rw [whole,cut,List.length_append,← Nat.add_assoc]
        split
        · rename_i there
          rw [if_pos there] at step
          obtain ⟨c',read,left,steady'⟩ := step
          obtain ⟨front,back⟩ := pieceCut got io.bytes (n := len - out.length)
            (by omega)
          refine ⟨c',?_,?_,steady'⟩
          · rw [read,front,List.append_assoc,Nat.sub_add_eq]
          · rw [left,back,Nat.sub_add_eq]
        · rename_i short
          rw [if_neg short] at step
          exact step

theorem readExactWhole {len} {c} (steady : Steady c.io) (there : len ≤ c.unread.length) :
    ∃ c', readExact len c = (.ok (c.unread.take len),c') ∧ c'.unread = c.unread.drop len ∧ Steady c'.io := by
  have step := readExactLoopMeets len (len + 1) [] steady (Nat.zero_le _)
    (by simp)
  rw [if_pos (by simpa using there)] at step
  simpa [readExact] using step

theorem readExactShort {len} {c} (steady : Steady c.io) (short : c.unread.length < len) :
    ∃ c', readExact len c = (.error .unexpectedEof,c') := by
  have step := readExactLoopMeets len (len + 1) [] steady (Nat.zero_le _)
    (by simp)
  rw [if_neg (by simpa using short)] at step
  exact step

end ZeroServe.H1
