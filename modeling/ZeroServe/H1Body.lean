import ZeroServe.H1Conn

/-! Message bodies of `http/h1.rs`: the cursor a body keeps on its connection and how the server moves it. `Delimits`
says which bytes of the unread stream a cursor still stands for. -/
namespace ZeroServe.H1
open ByteText ByteSource ChunkCoding

inductive Body where
  | none
  | fixed (remaining : Nat)
  | chunked (remaining : Nat) (needCrlf readingTrailers done : Bool)
  | eof (done : Bool)
  deriving DecidableEq

def Body.isChunked : Body → Bool
  | .chunked .. => true
  | _ => false

def Body.isEof : Body → Bool
  | .eof _ => true
  | _ => false

def newChunked : Body := .chunked 0 false false false

def requestBodyFromHeaders (head : RequestHead) : Body :=
  if hasChunked head.headers then newChunked else
  match contentLength head.headers with
  | some len => if len = 0 then .none else .fixed len
  | none => .none

def responseBodyFromHeaders (head : ResponseHead) : Body :=
  if head.status.isInformational || head.status.code == 204 || head.status.code == 304 then .none
  else if hasChunked head.headers then newChunked else
  match contentLength head.headers with
  | some len => if len = 0 then .none else .fixed len
  | none => .eof false

def Delimits : Body → Bytes → Bytes → Bytes → Prop
  | .none, stream, payload, rest => payload = [] ∧ stream = rest
  | .fixed n, stream, payload, rest => stream = payload ++ rest ∧ payload.length = n
  | .chunked _ _ _ true, stream, payload, rest => payload = [] ∧ stream = rest
  | .chunked _ _ true false, stream, payload, rest => payload = [] ∧ Trailers stream rest
  | .chunked 0 true false false, stream, payload, rest =>
    ∃ s, stream = crlf ++ s ∧ Coded chunkSize s payload rest
  | .chunked 0 false false false, stream, payload, rest => Coded chunkSize stream payload rest
  | .chunked (n+1) _ false false, stream, payload, rest =>
    ∃ data s later, stream = data ++ crlf ++ s ∧ data.length = n + 1 ∧
      payload = data ++ later ∧ Coded chunkSize s later rest
  | .eof true, stream, payload, rest => payload = [] ∧ stream = rest
  | .eof false, stream, payload, rest => payload = stream ∧ rest = []

theorem delimitsUnique {b s p r p' r'} (h : Delimits b s p r) (h' : Delimits b s p' r') : p = p' ∧ r = r' := by
  unfold Delimits at h h'
  split at h
  · exact ⟨h.1.trans h'.1.symm,h.2.symm.trans h'.2⟩
  · have cut := List.append_inj (h.1.symm.trans h'.1) (h.2.trans h'.2.symm)
    exact cut
  · exact ⟨h.1.trans h'.1.symm,h.2.symm.trans h'.2⟩
  · exact ⟨h.1.trans h'.1.symm,trailersUnique h.2 h'.2⟩
  · obtain ⟨t,rfl,coded⟩ := h
    obtain ⟨t',same,coded'⟩ := h'
    have next := List.append_cancel_left same
    exact codedUnique coded (next ▸ coded')
  · exact codedUnique h h'
  · obtain ⟨d,t,later,rfl,size,rfl,coded⟩ := h
    obtain ⟨d',t',later',same,size',rfl,coded'⟩ := h'
    simp only [List.append_assoc] at same
    obtain ⟨rfl,after⟩ := List.append_inj same (size.trans size'.symm)
    have next := List.append_cancel_left after
    obtain ⟨rfl,rest⟩ := codedUnique coded (next ▸ coded')
    exact ⟨rfl,rest⟩
  · exact ⟨h.1.trans h'.1.symm,h.2.symm.trans h'.2⟩
  · exact ⟨h.1.trans h'.1.symm,h.2.trans h'.2.symm⟩

def chunkData (remaining : Nat) (needCrlf : Bool) (c : Conn) :
    Option (Except HttpError Bytes) × Body × Conn :=
  match readExact (min remaining readBufSize) c with
  | (.ok bytes,c) =>
    let left := remaining - bytes.length
    (some (.ok bytes),.chunked left (needCrlf || left == 0) false false,c)
  | (.error e,c) => (some (.error e),.chunked remaining needCrlf false false,c)

def chunkStart (needCrlf : Bool) (c : Conn) : Option (Except HttpError Bytes) × Body × Conn :=
  match (if needCrlf then readChunkCrlf c else (.ok (),c)) with
  | (.error e,c) => (some (.error e),.chunked 0 needCrlf false false,c)
  | (.ok _,c) =>
    match readChunkSize c with
    | (.ok (some 0),c) =>
      match readChunkTrailers c with
      | (.error e,c) => (some (.error e),.chunked 0 false true false,c)
      | (.ok _,c) => (none,.chunked 0 false true true,c)
    | (.ok (some size),c) => chunkData size false c
    | (.ok none,c) => (some (.error .unexpectedEof),.chunked 0 false false false,c)
    | (.error e,c) => (some (.error e),.chunked 0 false false false,c)

def nextData (body : Body) (c : Conn) : Option (Except HttpError Bytes) × Body × Conn :=
  match body with
  | .none => (none,.none,c)
  | .fixed remaining =>
    if remaining = 0 then (none,body,c) else
    match readExact (min remaining readBufSize) c with
    | (.ok bytes,c) => (some (.ok bytes),.fixed (remaining - bytes.length),c)
    | (.error e,c) => (some (.error e),body,c)
  | .chunked remaining needCrlf readingTrailers done =>
    if done then (none,body,c)
    else if readingTrailers then
      match readChunkTrailers c with
      | (.error e,c) => (some (.error e),body,c)
      | (.ok _,c) => (none,.chunked remaining needCrlf true true,c)
    else if remaining = 0 then chunkStart needCrlf c
    else chunkData remaining needCrlf c
  | .eof done =>
    if done then (none,body,c) else
    match readSome c with
    | (.ok (some bytes),c) => (some (.ok bytes),body,c)
    | (.ok none,c) => (none,.eof true,c)
    | (.error e,c) => (some (.error e),body,c)

def finished : Body → Bool
  | .none => true
  | .fixed n => n == 0
  | .chunked _ _ _ done => done
  | .eof done => done

def DataStep (b : Body) (c : Conn) (b' : Body) (c' : Conn) :
    Option (Except HttpError Bytes) → Prop
  | none => Delimits b c.unread [] c'.unread ∧ finished b' = true
  | some (.ok data) => data ≠ [] ∧ data.length ≤ readBufSize ∧
      ∀ payload rest, Delimits b' c'.unread payload rest →
        Delimits b c.unread (data ++ payload) rest
  | some (.error _) => True

theorem finishedDelimits {b} (h : finished b = true) (s : Bytes) : Delimits b s [] s := by
  cases b with
  | none => exact ⟨rfl,rfl⟩
  | fixed n =>
    have zero : n = 0 := by simpa [finished] using h
    subst zero
    exact ⟨rfl,rfl⟩
  | chunked n a t done =>
    have ended := h
    subst ended
    exact ⟨rfl,rfl⟩
  | eof done =>
    have ended := h
    subst ended
    exact ⟨rfl,rfl⟩

theorem minRead {n} (some : n ≠ 0) {got c c'} (h : readExact (min n readBufSize) c = (.ok got,c')) :
    got ≠ [] ∧ got.length ≤ n ∧ got.length ≤ readBufSize ∧ c.unread = got ++ c'.unread := by
  obtain ⟨size,cut⟩ := readExactSpec h
  have big : 0 < readBufSize := by decide
  refine ⟨List.length_pos_iff.mp ?_,?_,?_,cut⟩ <;> omega

theorem chunkAdvance {n} {a a' bytes s s' payload rest} (some : n ≠ 0) (within : bytes.length ≤ n)
    (cut : s = bytes ++ s') (after : Delimits (.chunked (n - bytes.length) (a || n - bytes.length == 0) false false)
      s' payload rest) : Delimits (.chunked n a' false false) s (bytes ++ payload) rest := by
  obtain ⟨m,rfl⟩ := Nat.exists_eq_succ_of_ne_zero some
  cases left : m.succ - bytes.length with
  | zero =>
    have whole : bytes.length = m + 1 := by omega
    simp only [left,Delimits,beq_self_eq_true,Bool.or_true] at after
    obtain ⟨t,next,coded⟩ := after
    exact ⟨bytes,t,payload,by simp [cut,next],whole,rfl,coded⟩
  | succ k =>
    simp only [left,Delimits] at after
    obtain ⟨data,t,later,next,size,rfl,coded⟩ := after
    refine ⟨bytes ++ data,t,later,by simp [cut,next],?_,by simp,coded⟩
    simp only [List.length_append]; omega

theorem chunkOpened {n} {a line s s' payload rest} (free : CrlfFree line) (value : chunkSize line = some n)
    (some : n ≠ 0) (cut : s = line ++ crlf ++ s') (inside : Delimits (.chunked n a false false) s' payload rest) :
    Coded chunkSize s payload rest := by
  obtain ⟨m,rfl⟩ := Nat.exists_eq_succ_of_ne_zero some
  obtain ⟨data,t,later,next,length,same,coded⟩ := inside
  rw [cut,next,same]
  refine .chunk free (by rw [value,length]) ?_ coded
  exact List.length_pos_iff.mp (by omega)

theorem chunkDataStep {n} (needCrlf : Bool) (c : Conn) (some : n ≠ 0) :
    DataStep (.chunked n needCrlf false false) c (chunkData n needCrlf c).2.1
      (chunkData n needCrlf c).2.2 (chunkData n needCrlf c).1 := by
  unfold chunkData
  split
  · rename_i bytes c1 read
    obtain ⟨nonempty,within,small,cut⟩ := minRead some read
    exact ⟨nonempty,small,fun payload rest after => chunkAdvance some within cut after⟩
  · exact trivial

theorem chunkDataSome (n : Nat) (needCrlf : Bool) (c : Conn) : (chunkData n needCrlf c).1 ≠ none := by
  unfold chunkData
  split <;> simp

theorem chunkStartStep (needCrlf : Bool) (c : Conn) :
    DataStep (.chunked 0 needCrlf false false) c (chunkStart needCrlf c).2.1
      (chunkStart needCrlf c).2.2 (chunkStart needCrlf c).1 := by
  unfold chunkStart
  split
  · exact trivial
  · rename_i c1 ended
    -- past the line end the cursor stands at a size line
    have back : ∀ payload rest, Coded chunkSize c1.unread payload rest →
        Delimits (.chunked 0 needCrlf false false) c.unread payload rest := by
      intro payload rest coded
      cases needCrlf with
      | false => cases ended; exact coded
      | true => exact ⟨c1.unread,readChunkCrlfSpec ended,coded⟩
    split
    · rename_i c2 size
      obtain ⟨line,cut,free,zero⟩ := readChunkSizeSpec size
      split
      · exact trivial
      · rename_i c3 trailers
        refine ⟨back _ _ ?_,rfl⟩
        rw [cut]
        exact .last free zero (readChunkTrailersSpec trailers)
    · rename_i n c2 zero size
      obtain ⟨line,cut,free,value⟩ := readChunkSizeSpec size
      have some : n ≠ 0 := fun same => zero (by rw [same])
      have step := chunkDataStep false c2 some
      cases result : (chunkData n false c2).1 with
      | none => exact absurd result (chunkDataSome n false c2)
      | some result' =>
        rw [result] at step
        cases result' with
        | error e => exact trivial
        | ok data =>
          exact ⟨step.1,step.2.1,fun payload rest after =>
            back _ _ (chunkOpened free value some cut (step.2.2 payload rest after))⟩
    · exact trivial
    · exact trivial

theorem nextDataStep {b b' c c' r} (h : nextData b c = (r,b',c')) : DataStep b c b' c' r := by
  cases b with
  | none => cases h; exact ⟨⟨rfl,rfl⟩,rfl⟩
  | fixed n =>
    simp only [nextData] at h
    split at h
    · rename_i zero
      cases h
      subst zero
      exact ⟨⟨rfl,rfl⟩,rfl⟩
    · rename_i some
      split at h
      · rename_i bytes c1 read
        cases h
        obtain ⟨nonempty,within,small,cut⟩ := minRead some read
        refine ⟨nonempty,small,fun payload rest after => ⟨?_,?_⟩⟩
        · rw [cut,after.1,List.append_assoc]
        · rw [List.length_append,after.2]; omega
      · cases h; exact trivial
  | chunked n a t done =>
    simp only [nextData] at h
    split at h
    · rename_i ended
      cases h
      subst ended
      exact ⟨finishedDelimits rfl _,rfl⟩
    · rename_i active
      have active : done = false := by simpa using active
      subst active
      split at h
      · rename_i trailers
        subst trailers
        split at h
        · cases h; exact trivial
        · rename_i c1 read
          cases h
          exact ⟨by unfold Delimits; exact ⟨rfl,readChunkTrailersSpec read⟩,rfl⟩
      · rename_i data
        have data : t = false := by simpa using data
        subst data
        split at h
        · rename_i zero
          subst zero
          have step := chunkStartStep a c
          rw [h] at step
          exact step
        · rename_i some
          have step := chunkDataStep a c some
          rw [h] at step
          exact step
  | eof done =>
    simp only [nextData] at h
    split at h
    · rename_i ended
      cases h
      subst ended
      exact ⟨⟨rfl,rfl⟩,rfl⟩
    · rename_i active
      have active : done = false := by simpa using active
      subst active
      split at h
      · rename_i bytes c1 read
        cases h
        obtain ⟨nonempty,small,cut⟩ := readSomeSpec read
        exact ⟨nonempty,small,fun payload rest after => ⟨by rw [after.1,cut],after.2⟩⟩
      · rename_i c1 read
        cases h
        obtain ⟨gone,gone'⟩ := readSomeSpec read
        exact ⟨⟨gone.symm,gone'⟩,rfl⟩
      · cases h; exact trivial

inductive Reads : Body → Conn → List Bytes → Body → Conn → Prop where
  | nil (b c) : Reads b c [] b c
  | cons {b c data b1 c1 later b' c'} (step : nextData b c = (some (.ok data),b1,c1))
      (tail : Reads b1 c1 later b' c') : Reads b c (data::later) b' c'

theorem readsPieces {b c pieces b' c'} (run : Reads b c pieces b' c') :
    ∀ data ∈ pieces, data ≠ [] ∧ data.length ≤ readBufSize := by
  induction run with
  | nil => simp
  | cons step _ ih =>
    intro data mem
    rcases List.mem_cons.mp mem with rfl | later
    · exact ⟨(nextDataStep step).1,(nextDataStep step).2.1⟩
    · exact ih data later

theorem readsDelimits {b c pieces b' c'} (run : Reads b c pieces b' c') {payload rest}
    (after : Delimits b' c'.unread payload rest) : Delimits b c.unread (pieces.flatten ++ payload) rest := by
  induction run with
  | nil => simpa using after
  | cons step _ ih =>
    have inner := (nextDataStep step).2.2 _ _ (ih after)
    simpa [List.append_assoc] using inner

theorem readsEnd {b c pieces b1 c1 b' c'} (run : Reads b c pieces b1 c1)
    (last : nextData b1 c1 = (none,b',c')) : Delimits b c.unread pieces.flatten c'.unread := by
  simpa using readsDelimits run (nextDataStep last).1

theorem readExactShrinks {n} (some : n ≠ 0) {got c c'} (h : readExact (min n readBufSize) c = (.ok got,c')) :
    c'.unread.length < c.unread.length := by
  obtain ⟨nonempty,_,_,cut⟩ := minRead some h
  have := List.length_pos_iff.mpr nonempty
  rw [cut,List.length_append]; omega

theorem chunkDataShrinks {n} {needCrlf} (some : n ≠ 0) {c c' data b'}
    (h : chunkData n needCrlf c = (Option.some (.ok data),b',c')) : c'.unread.length < c.unread.length := by
  unfold chunkData at h
  split at h
  · rename_i bytes c1 read
    cases h
    exact readExactShrinks some read
  · cases h

theorem nextDataShrinks {b b' c c' data} (h : nextData b c = (some (.ok data),b',c')) :
    c'.unread.length < c.unread.length := by
  cases b with
  | none => cases h
  | fixed n =>
    simp only [nextData] at h
    split at h
    · cases h
    · rename_i some
      split at h
      · rename_i bytes c1 read
        cases h
        exact readExactShrinks some read
      · cases h
  | chunked n a t done =>
    simp only [nextData] at h
    split at h
    · cases h
    · split at h
      · split at h <;> cases h
      · split at h
        · unfold chunkStart at h
          split at h
          · cases h
          · rename_i c1 ended
            have first : c1.unread.length ≤ c.unread.length := by
              cases a with
              | false => cases ended; exact le_rfl
              | true =>
                have cut := readChunkCrlfSpec ended
                rw [cut,List.length_append]; omega
            split at h
            · split at h <;> cases h
            · rename_i size c2 zero line
              obtain ⟨_,cut,_⟩ := readChunkSizeSpec line
              have rest := chunkDataShrinks (fun same => zero (by rw [same])) h
              rw [cut,List.length_append] at first
              omega
            · cases h
            · cases h
        · rename_i some
          exact chunkDataShrinks some h
  | eof done =>
    simp only [nextData] at h
    split at h
    · cases h
    · split at h
      · rename_i bytes c1 read
        cases h
        obtain ⟨nonempty,_,cut⟩ := readSomeSpec read
        have := List.length_pos_iff.mpr nonempty
        rw [cut,List.length_append]; omega
      · cases h
      · cases h

/- Read a body to its end or to the first error, keeping the pieces:
`while let Some(chunk) = body.next_data(conn).await`. -/
def readAllLoop : Nat → List Bytes → Body → Conn → Except HttpError (List Bytes) × Body × Conn
  | 0, _, b, c => (.error .unexpectedEof,b,c)
  | fuel+1, pieces, b, c =>
    match nextData b c with
    | (none,b,c) => (.ok pieces,b,c)
    | (some (.error e),b,c) => (.error e,b,c)
    | (some (.ok data),b,c) => readAllLoop fuel (pieces ++ [data]) b c

def readAll (b : Body) (c : Conn) : Except HttpError (List Bytes) × Body × Conn :=
  readAllLoop (c.unread.length + 1) [] b c

theorem readAllLoopSpec {fuel} {seen pieces b b' c c'} (h : readAllLoop fuel seen b c = (.ok pieces,b',c')) :
    ∃ later b1 c1, pieces = seen ++ later ∧ Reads b c later b1 c1 ∧ nextData b1 c1 = (none,b',c') := by
  induction fuel generalizing seen b c with
  | zero => cases h
  | succ fuel ih =>
    unfold readAllLoop at h
    split at h
    · rename_i b1 c1 last
      cases h
      exact ⟨[],b,c,by simp,.nil _ _,last⟩
    · cases h
    · rename_i data b1 c1 step
      obtain ⟨later,b2,c2,same,run,last⟩ := ih h
      exact ⟨data::later,b2,c2,by simp [same],.cons step run,last⟩

theorem readAllSpec {b b' c c' pieces} (h : readAll b c = (.ok pieces,b',c')) :
    Delimits b c.unread pieces.flatten c'.unread := by
  obtain ⟨later,b1,c1,same,run,last⟩ := readAllLoopSpec h
  rw [same]
  exact readsEnd run last

end ZeroServe.H1
