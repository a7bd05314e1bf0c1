import ZeroServe.H1Body

/-! The second way a body is moved: `try_drain_into` copies what is already buffered and
`fill` reads once more when that is used up. Both are related to the same `Delimits` as
`next_data`. -/
namespace ZeroServe.H1
open ByteText ByteSource ChunkCoding

inductive TryBodyData where
  | copied
  | needRead
  | done
  deriving DecidableEq

def tryFindLine (c : Conn) : Except HttpError (Option Nat) :=
  match find crlf c.buf with
  | none => if maxLineSize < c.buf.length then .error .lineTooLong else .ok none
  | some idx => if maxLineSize < idx then .error .lineTooLong else .ok (some idx)

def Conn.consume (n : Nat) (c : Conn) : Conn := {c with buf := c.buf.drop n}

def trySkipLine (c : Conn) : Except HttpError (Option Bool) × Conn :=
  match tryFindLine c with
  | .error e => (.error e,c)
  | .ok none => (.ok none,c)
  | .ok (some idx) => (.ok (some (idx == 0)),c.consume (idx + 2))

def tryReadChunkSize (c : Conn) : Except HttpError (Option Nat) × Conn :=
  match tryFindLine c with
  | .error e => (.error e,c)
  | .ok none => (.ok none,c)
  | .ok (some idx) =>
    match parseChunkSizeLine (c.buf.take idx) with
    | .error e => (.error e,c)
    | .ok size => (.ok (some size),c.consume (idx + 2))

def tryConsumeCrlf (c : Conn) : Except HttpError Bool × Conn :=
  if c.buf.length < 2 then (.ok false,c)
  else if c.buf.take 2 ≠ crlf then (.error .invalidChunked,c)
  else (.ok true,c.consume 2)

def drainChunk (maxTake : Nat) (rechunk : Bool) (remaining : Nat) (needCrlf : Bool) (c : Conn)
    (out : Bytes) : Except HttpError TryBodyData × Body × Conn × Bytes :=
  if c.buf = [] then (.ok .needRead,.chunked remaining needCrlf false false,c,out) else
  let toCopy := min (min c.buf.length maxTake) remaining
  let left := remaining - toCopy
  (.ok .copied,.chunked left (needCrlf || left == 0) false false,c.consume toCopy,
    out ++ framePiece rechunk (c.buf.take toCopy))

def drainStart (maxTake : Nat) (rechunk : Bool) (needCrlf : Bool)
    (again : Body → Conn → Bytes → Except HttpError TryBodyData × Body × Conn × Bytes)
    (c : Conn) (out : Bytes) : Except HttpError TryBodyData × Body × Conn × Bytes :=
  match (if needCrlf then tryConsumeCrlf c else (.ok true,c)) with
  | (.error e,c) => (.error e,.chunked 0 needCrlf false false,c,out)
  | (.ok false,c) => (.ok .needRead,.chunked 0 needCrlf false false,c,out)
  | (.ok true,c) =>
    match tryReadChunkSize c with
    | (.error e,c) => (.error e,.chunked 0 false false false,c,out)
    | (.ok none,c) => (.ok .needRead,.chunked 0 false false false,c,out)
    | (.ok (some 0),c) => again (.chunked 0 false true false) c out
    | (.ok (some size),c) => drainChunk maxTake rechunk size false c out

/- `try_drain_into` with its inner loop, which goes round after a trailer line and after
the last size line. -/
def drainLoop (maxTake : Nat) (rechunk : Bool) :
    Nat → Body → Conn → Bytes → Except HttpError TryBodyData × Body × Conn × Bytes
  | 0, b, c, out => (.error .unexpectedEof,b,c,out)
  | fuel+1, b, c, out =>
    match b with
    | .none => (.ok .done,b,c,out)
    | .fixed remaining =>
      if remaining = 0 then (.ok .done,b,c,out)
      else if c.buf = [] then (.ok .needRead,b,c,out)
      else
        let toCopy := min (min c.buf.length maxTake) remaining
        (.ok .copied,.fixed (remaining - toCopy),c.consume toCopy, out ++ framePiece rechunk (c.buf.take toCopy))
    | .chunked remaining needCrlf readingTrailers done =>
      if done then (.ok .done,b,c,out)
      else if readingTrailers then
        match trySkipLine c with
        | (.error e,c) => (.error e,b,c,out)
        | (.ok none,c) => (.ok .needRead,b,c,out)
        | (.ok (some true),c) => (.ok .done,.chunked remaining needCrlf true true,c,out)
        | (.ok (some false),c) => drainLoop maxTake rechunk fuel b c out
      else if remaining = 0 then
        drainStart maxTake rechunk needCrlf (drainLoop maxTake rechunk fuel) c out
      else drainChunk maxTake rechunk remaining needCrlf c out
    | .eof done =>
      if done then (.ok .done,b,c,out)
      else if c.buf = [] then (.ok .needRead,b,c,out)
      else
        let toCopy := min c.buf.length maxTake
        (.ok .copied,b,c.consume toCopy,out ++ framePiece rechunk (c.buf.take toCopy))

def tryDrainInto (b : Body) (c : Conn) (out : Bytes) (maxTake : Nat) (rechunk : Bool) :
    Except HttpError TryBodyData × Body × Conn × Bytes :=
  drainLoop (max maxTake 1) rechunk (c.buf.length + 1) b c out

def fill (b : Body) (c : Conn) (maxReadSize : Nat) : Except HttpError Unit × Body × Conn :=
  match fillBuf maxReadSize c with
  | (.error e,c) => (.error e,b,c)
  | (.ok 0,c) =>
    match b with
    | .none => (.ok (),b,c)
    | .eof _ => (.ok (),.eof true,c)
    | .fixed remaining => (if 0 < remaining then .error .unexpectedEof else .ok (),b,c)
    | .chunked _ _ _ done => (if done then .ok () else .error .unexpectedEof,b,c)
  | (.ok _,c) => (.ok (),b,c)

def DrainStep (maxTake : Nat) (rechunk : Bool) (b : Body) (c : Conn) (out : Bytes) (b' : Body) (c' : Conn)
    (out' : Bytes) : Except HttpError TryBodyData → Prop
  | .error _ => True
  | .ok .done => out' = out ∧ Delimits b c.unread [] c'.unread ∧ finished b' = true
  | .ok .needRead => out' = out ∧ (b'.isEof = true → c'.buf = []) ∧
      ∀ payload rest, Delimits b' c'.unread payload rest → Delimits b c.unread payload rest
  | .ok .copied => ∃ data, data ≠ [] ∧ data.length ≤ maxTake ∧
      out' = out ++ framePiece rechunk data ∧
      ∀ payload rest, Delimits b' c'.unread payload rest →
        Delimits b c.unread (data ++ payload) rest

theorem takeCut (n : Nat) (c : Conn) : c.unread = c.buf.take n ++ (c.consume n).unread := by
  simp only [Conn.unread,Conn.consume,← List.append_assoc,List.take_append_drop]

theorem takeNonempty {n} {s : Bytes} (some : s ≠ []) (positive : 0 < n) : s.take n ≠ [] := by
  intro empty
  rcases List.take_eq_nil_iff.mp empty with zero | nil
  · omega
  · exact some nil

theorem tryFindLineSpec {c idx} (h : tryFindLine c = .ok (some idx)) :
    c.unread = c.buf.take idx ++ crlf ++ (c.consume (idx + 2)).unread ∧
      CrlfFree (c.buf.take idx) ∧ idx ≤ c.buf.length := by
  unfold tryFindLine at h
  split at h
  · split at h <;> cases h
  · rename_i i found
    split at h
    · cases h
    · cases h
      have sound := findSound found
      have bound := findBound found
      refine ⟨?_,findCrlfFree found,by omega⟩
      simp only [Conn.unread,Conn.consume]
      rw [← List.append_assoc]
      exact congrArg (· ++ c.io.bytes) sound

theorem trySkipLineSpec {c c' empty} (h : trySkipLine c = (.ok (some empty),c')) :
    ∃ line, c.unread = line ++ crlf ++ c'.unread ∧ CrlfFree line ∧ (empty = true ↔ line = []) := by
  unfold trySkipLine at h
  split at h
  · cases h
  · cases h
  · rename_i idx found
    cases h
    obtain ⟨cut,free,bound⟩ := tryFindLineSpec found
    refine ⟨_,cut,free,?_⟩
    rw [beq_iff_eq,List.take_eq_nil_iff]
    constructor
    · exact .inl
    · rintro (zero | nil)
      · exact zero
      · rw [nil] at bound; simpa using bound

theorem tryReadChunkSizeSpec {c c' n} (h : tryReadChunkSize c = (.ok (some n),c')) :
    ∃ line, c.unread = line ++ crlf ++ c'.unread ∧ CrlfFree line ∧ chunkSize line = some n := by
  unfold tryReadChunkSize at h
  split at h
  · cases h
  · cases h
  · rename_i idx found
    split at h
    · cases h
    · rename_i size parsed
      cases h
      obtain ⟨cut,free,_⟩ := tryFindLineSpec found
      exact ⟨_,cut,free,by rw [chunkSize,parsed]; rfl⟩

theorem tryStays {c c'} : (trySkipLine c = (.ok none,c') → c' = c) ∧ (tryReadChunkSize c = (.ok none,c') → c' = c) ∧
      (tryConsumeCrlf c = (.ok false,c') → c' = c) := by
  refine ⟨?_,?_,?_⟩
  · intro h
    unfold trySkipLine at h
    split at h <;> cases h
    rfl
  · intro h
    unfold tryReadChunkSize at h
    split at h
    · cases h
    · cases h; rfl
    · split at h <;> cases h
  · intro h
    unfold tryConsumeCrlf at h
    split at h
    · cases h; rfl
    · split at h <;> cases h

theorem tryConsumeCrlfSpec {c c'} (h : tryConsumeCrlf c = (.ok true,c')) : c.unread = crlf ++ c'.unread := by
  unfold tryConsumeCrlf at h
  split at h
  · cases h
  · split at h
    · cases h
    · rename_i same
      cases h
      have same : c.buf.take 2 = crlf := by simpa using same
      rw [takeCut 2 c,same]

theorem drainChunkStep {maxTake remaining} {rechunk needCrlf : Bool} {c : Conn} {out : Bytes} (room : 0 < maxTake)
    (some : remaining ≠ 0) {r b' c' out'} (h : drainChunk maxTake rechunk remaining needCrlf c out = (r,b',c',out')) :
    DrainStep maxTake rechunk (.chunked remaining needCrlf false false) c out b' c' out' r := by
  unfold drainChunk at h
  split at h
  · cases h
    exact ⟨rfl,(by simp [Body.isEof]),fun _ _ after => after⟩
  · rename_i buffered
    cases h
    have positive : 0 < min (min c.buf.length maxTake) remaining := by
      have := List.length_pos_iff.mpr buffered
      omega
    refine ⟨_,takeNonempty buffered positive,by rw [List.length_take]; omega,rfl,?_⟩
    intro payload rest after
    have size : (c.buf.take (min (min c.buf.length maxTake) remaining)).length =
        min (min c.buf.length maxTake) remaining := by
      rw [List.length_take]; omega
    apply chunkAdvance some (by omega) (takeCut _ c) (a := needCrlf)
    rw [size]
    exact after

theorem drainStepBack {maxTake} {rechunk b b1 b' c c1 c' out out' r}
    (back : ∀ payload rest, Delimits b1 c1.unread payload rest → Delimits b c.unread payload rest)
    (step : DrainStep maxTake rechunk b1 c1 out b' c' out' r) : DrainStep maxTake rechunk b c out b' c' out' r := by
  cases r with
  | error e => exact trivial
  | ok kind =>
    cases kind with
    | done => exact ⟨step.1,back _ _ step.2.1,step.2.2⟩
    | needRead => exact ⟨step.1,step.2.1,fun p rest after => back _ _ (step.2.2 p rest after)⟩
    | copied =>
      obtain ⟨data,nonempty,small,wrote,next⟩ := step
      exact ⟨data,nonempty,small,wrote,fun p rest after => back _ _ (next p rest after)⟩

theorem drainStartStep {maxTake} {rechunk needCrlf} (room : 0 < maxTake)
    {again : Body → Conn → Bytes → Except HttpError TryBodyData × Body × Conn × Bytes} {c out} {r b' c' out'}
    (next : ∀ {b c}, again b c out = (r,b',c',out') → DrainStep maxTake rechunk b c out b' c' out' r)
    (h : drainStart maxTake rechunk needCrlf again c out = (r,b',c',out')) :
    DrainStep maxTake rechunk (.chunked 0 needCrlf false false) c out b' c' out' r := by
  unfold drainStart at h
  split at h
  · cases h; exact trivial
  · rename_i c1 short
    cases h
    cases needCrlf with
    | false => cases short
    | true =>
      cases tryStays.2.2 short
      exact ⟨rfl,(by simp [Body.isEof]),fun _ _ after => after⟩
  · rename_i c1 ended
    have back : ∀ payload rest, Coded chunkSize c1.unread payload rest →
        Delimits (.chunked 0 needCrlf false false) c.unread payload rest := by
      intro payload rest coded
      cases needCrlf with
      | false => cases ended; exact coded
      | true => exact ⟨c1.unread,tryConsumeCrlfSpec ended,coded⟩
    split at h
    · cases h; exact trivial
    · rename_i c2 none
      cases h
      cases tryStays.2.1 none
      exact ⟨rfl,(by simp [Body.isEof]),fun p rest after => back _ _ after⟩
    · rename_i c2 size
      obtain ⟨line,cut,free,zero⟩ := tryReadChunkSizeSpec size
      refine drainStepBack ?_ (next h)
      intro payload rest after
      apply back
      rw [cut,after.1]
      exact .last free zero after.2
    · rename_i n c2 zero size
      obtain ⟨line,cut,free,value⟩ := tryReadChunkSizeSpec size
      have some : n ≠ 0 := fun same => zero (by rw [same])
      refine drainStepBack ?_ (drainChunkStep room some h)
      intro payload rest after
      exact back _ _ (chunkOpened free value some cut after)

theorem drainLoopStep {maxTake fuel} {rechunk : Bool} (room : 0 < maxTake) {b : Body} {c : Conn} {out : Bytes}
    {r b' c' out'} (h : drainLoop maxTake rechunk fuel b c out = (r,b',c',out')) :
    DrainStep maxTake rechunk b c out b' c' out' r := by
  induction fuel generalizing b c with
  | zero => cases h; exact trivial
  | succ fuel ih =>
    cases b with
    | none => cases h; exact ⟨rfl,⟨rfl,rfl⟩,rfl⟩
    | fixed n =>
      simp only [drainLoop] at h
      split at h
      · rename_i zero
        cases h
        exact ⟨rfl,finishedDelimits (by simpa [finished] using zero) _,by simpa [finished] using zero⟩
      · rename_i some
        split at h
        · cases h; exact ⟨rfl,(by simp [Body.isEof]),fun _ _ after => after⟩
        · rename_i buffered
          cases h
          have positive := List.length_pos_iff.mpr buffered
          have size : (c.buf.take (min (min c.buf.length maxTake) n)).length =
              min (min c.buf.length maxTake) n := by rw [List.length_take]; omega
          refine ⟨_,takeNonempty buffered (by omega),by omega,rfl,?_⟩
          intro payload rest after
          refine ⟨?_,?_⟩
          · rw [takeCut (min (min c.buf.length maxTake) n) c,after.1,List.append_assoc]
          · rw [List.length_append,after.2]; omega
    | chunked n a t done =>
      simp only [drainLoop] at h
      split at h
      · rename_i ended
        cases h
        subst ended
        exact ⟨rfl,finishedDelimits rfl _,rfl⟩
      · rename_i active
        have active : done = false := by simpa using active
        subst active
        split at h
        · rename_i trailers
          subst trailers
          split at h
          · cases h; exact trivial
          · rename_i c1 none
            cases h
            cases tryStays.1 none
            exact ⟨rfl,(by simp [Body.isEof]),fun _ _ after => after⟩
          · rename_i c1 skipped
            cases h
            obtain ⟨line,cut,_,empty⟩ := trySkipLineSpec skipped
            rw [empty.mp rfl] at cut
            refine ⟨rfl,?_,rfl⟩
            rw [cut]
            exact ⟨rfl,.done _⟩
          · rename_i c1 skipped
            obtain ⟨line,cut,free,empty⟩ := trySkipLineSpec skipped
            refine drainStepBack ?_ (ih h)
            intro payload rest after
            rw [cut]
            exact ⟨after.1,.line free (fun nil => by simpa using empty.mpr nil) after.2⟩
        · rename_i data
          have data : t = false := by simpa using data
          subst data
          split at h
          · rename_i zero
            subst zero
            exact drainStartStep room (fun h => ih h) h
          · rename_i some
            exact drainChunkStep room some h
    | eof done =>
      simp only [drainLoop] at h
      split at h
      · rename_i ended
        cases h
        subst ended
        exact ⟨rfl,finishedDelimits rfl _,rfl⟩
      · rename_i active
        have active : done = false := by simpa using active
        subst active
        split at h
        · rename_i empty
          cases h
          exact ⟨rfl,fun _ => empty,fun _ _ after => after⟩
        · rename_i buffered
          cases h
          have positive := List.length_pos_iff.mpr buffered
          refine ⟨_,takeNonempty buffered (by omega),by rw [List.length_take]; omega,rfl,?_⟩
          intro payload rest after
          exact ⟨by rw [after.1,← takeCut],after.2⟩

theorem tryDrainStep {b c out maxTake} {rechunk} {r b' c' out'}
    (h : tryDrainInto b c out maxTake rechunk = (r,b',c',out')) :
    DrainStep (max maxTake 1) rechunk b c out b' c' out' r := drainLoopStep (by omega) h

theorem fillStep {b b' c c' n} (drained : b.isEof = true → c.buf = []) (h : fill b c n = (.ok (),b',c')) {payload rest}
    (after : Delimits b' c'.unread payload rest) : Delimits b c.unread payload rest := by
  unfold fill at h
  split at h
  · cases h
  · rename_i c1 read
    have same := fillBufUnread read
    cases b with
    | none => cases h; rwa [same] at after
    | eof done =>
      cases h
      have gone : c.unread = [] := by
        rw [Conn.unread,drained rfl,((fillBufOk read).2.2 rfl).2]; rfl
      rw [same,gone] at after
      rw [gone]
      cases done with
      | true => exact after
      | false => exact ⟨after.1,after.2.symm⟩
    | fixed r =>
      simp only at h
      split at h <;> cases h
      rwa [same] at after
    | chunked r a t done =>
      simp only at h
      split at h <;> cases h
      rwa [same] at after
  · rename_i k c1 more read
    cases h
    rwa [fillBufUnread read] at after

end ZeroServe.H1
