import ZeroServe.BodyReaders

/-! One call of `next_data` against the meaning of the body on the whole stream: data leaves the rest of the same
reading, an end or a failure is that of the reading. -/
namespace ZeroServe.H1
open ByteText ByteSource ChunkCoding

def Stops (e : HttpError) (r : Reading) : Prop := r.payload = [] ∧ r.outcome = .error e

def SizeRead (c : Conn) : Except HttpError (Option Nat) × Conn → Prop
  | (.ok (some 0),c') => Steady c'.io ∧ ∃ line, line.length < maxLineSize ∧
      decodeChunks c.unread = .after [line] [] (decodeTrailers c'.unread)
  | (.ok (some (n+1)),c') => Steady c'.io ∧ ∃ line, line.length < maxLineSize ∧
      decodeChunks c.unread = .after [line] [] (decodeInside (n + 1) c'.unread)
  | (.ok none,_) => Stops .unexpectedEof (decodeChunks c.unread)
  | (.error e,_) => Stops e (decodeChunks c.unread)

theorem readChunkSizeMeets {c} (steady : Steady c.io) (first : FirstFits c.unread) : SizeRead c (readChunkSize c) := by
  have read := readLineRead steady first
  unfold readChunkSize
  cases line : readLine c with
  | mk r c1 =>
    rw [line] at read
    cases found : find crlf c.unread with
    | none =>
      simp only [LineRead,found] at read
      have stops : Stops (noLine c.unread) (decodeChunks c.unread) := by
        rw [decodeChunksLine,onLineNone found]
        exact ⟨rfl,rfl⟩
      obtain rfl | ⟨rfl,empty⟩ := read
      · exact stops
      · rw [empty] at stops
        simp only [SizeRead,empty]
        exact stops
    | some idx =>
      simp only [LineRead,found] at read
      obtain ⟨rfl,left,still⟩ := read
      have reading := onLineFound found first pastSize
      have short : (c.unread.take idx).length < maxLineSize := by
        have := first idx found
        rw [List.length_take]; omega
      rw [← decodeChunksLine,← left] at reading
      dsimp only
      cases parsed : parseChunkSizeLine (c.unread.take idx) with
      | error e =>
        simp only [pastSize,parsed] at reading
        simp only [SizeRead,Except.map,reading]
        exact ⟨rfl,rfl⟩
      | ok n =>
        simp only [pastSize,parsed] at reading
        cases n with
        | zero => exact ⟨still,_,short,reading⟩
        | succ n => exact ⟨still,_,short,reading⟩

def EndsAs (r : Reading) : Except HttpError Unit × Conn → Prop
  | (.ok _,c') => r.payload = [] ∧ r.outcome = .ok c'.unread
  | (.error e,_) => Stops e r

theorem readTrailersLoopMeets {fuel} {c} (enough : c.unread.length < fuel) (steady : Steady c.io)
    (fits : LinesFit (decodeTrailers c.unread)) : EndsAs (decodeTrailers c.unread) (readChunkTrailersLoop fuel c) := by
  induction fuel generalizing c with
  | zero => omega
  | succ fuel ih =>
    rw [decodeTrailersLine] at fits
    have first := onLineFits fits
    have read := readLineRead steady first
    unfold readChunkTrailersLoop
    cases line : readLine c with
    | mk r c1 =>
      rw [line] at read
      cases found : find crlf c.unread with
      | none =>
        simp only [LineRead,found] at read
        have stops : Stops (noLine c.unread) (decodeTrailers c.unread) := by
          rw [decodeTrailersLine,onLineNone found]
          exact ⟨rfl,rfl⟩
        obtain rfl | ⟨rfl,empty⟩ := read
        · exact stops
        · rw [empty] at stops
          simp only [EndsAs,empty]
          exact stops
      | some idx =>
        simp only [LineRead,found] at read
        obtain ⟨rfl,left,still⟩ := read
        have reading := onLineFound found first pastTrailer
        rw [reading,pastTrailer] at fits
        rw [← decodeTrailersLine,pastTrailer] at reading
        dsimp only
        split
        · rename_i empty
          rw [if_pos empty,← left] at reading
          rw [reading]
          exact ⟨rfl,rfl⟩
        · rename_i some
          rw [if_neg some,← left] at reading fits
          have bound := findBound found
          simp only [crlf,List.length_cons,List.length_nil] at bound
          have rest := ih (c := c1) (by rw [left,List.length_drop]; omega) still (fitsAfter fits)
          rw [reading]
          cases outcome : readChunkTrailersLoop fuel c1 with
          | mk r c2 =>
            rw [outcome] at rest
            cases r with
            | ok _ => exact rest
            | error e => exact rest

theorem readTrailersMeets {c} (steady : Steady c.io) (fits : LinesFit (decodeTrailers c.unread)) :
    EndsAs (decodeTrailers c.unread) (readChunkTrailers c) :=
  readTrailersLoopMeets (Nat.lt_succ_self _) steady fits

theorem readCrlfMeets {c} (steady : Steady c.io) : match readChunkCrlf c with
    | (.ok _,c') => decodeCrlf c.unread = decodeChunks c'.unread ∧ Steady c'.io
    | (.error e,_) => Stops e (decodeCrlf c.unread) := by
  unfold readChunkCrlf decodeCrlf
  by_cases short : c.unread.length < 2
  · obtain ⟨c1,read⟩ := readExactShort steady short
    rw [read,if_pos short]
    exact ⟨rfl,rfl⟩
  · obtain ⟨c1,read,left,still⟩ := readExactWhole steady (Nat.le_of_not_lt short)
    rw [read,if_neg short]
    dsimp only
    by_cases same : c.unread.take 2 = crlf
    · rw [if_pos same,if_neg (not_not.mpr same),← left]
      exact ⟨rfl,still⟩
    · rw [if_neg same,if_pos same]
      exact ⟨rfl,rfl⟩

/- One call of `next_data`. A read that meets the end of the stream loses what it had
taken, which is less than a buffer. -/
def NextMeets (b : Body) (c : Conn) : Option (Except HttpError Bytes) × Body × Conn → Prop
  | (none,_,c') => (decode b c.unread).payload = [] ∧ (decode b c.unread).outcome = .ok c'.unread
  | (some (.ok data),b',c') => Steady c'.io ∧
      ∃ ls, decode b c.unread = .after ls data (decode b' c'.unread)
  | (some (.error e),_,_) => (decode b c.unread).outcome = .error e ∧
      (decode b c.unread).payload.length < readBufSize ∧
      ((decode b c.unread).payload ≠ [] → e = .unexpectedEof)

theorem stopsNext {b b' c c' e} (stops : Stops e (decode b c.unread)) : NextMeets b c (some (.error e),b',c') :=
  ⟨stops.2,by rw [stops.1]; decide,fun some => absurd stops.1 some⟩

theorem nextMeetsBack {b b1 c c1 ls x} (reading : decode b c.unread = .after ls [] (decode b1 c1.unread))
    (meets : NextMeets b1 c1 x) : NextMeets b c x := by
  obtain ⟨r,b',c'⟩ := x
  cases r with
  | none =>
    rw [NextMeets,reading]
    exact meets
  | some r =>
    cases r with
    | error e =>
      rw [NextMeets,reading]
      exact meets
    | ok data =>
      obtain ⟨still,ls',inner⟩ := meets
      refine ⟨still,ls ++ ls',?_⟩
      rw [reading,inner,afterAfter,List.nil_append]

theorem chunkDataMeets {n} {needCrlf c} (some : n ≠ 0) (steady : Steady c.io) :
    NextMeets (.chunked n needCrlf false false) c (chunkData n needCrlf c) := by
  unfold chunkData
  by_cases there : min n readBufSize ≤ c.unread.length
  · obtain ⟨c1,read,left,still⟩ := readExactWhole steady there
    have size : (c.unread.take (min n readBufSize)).length = min n readBufSize := by
      rw [List.length_take]; omega
    rw [read]
    refine ⟨still,[],?_⟩
    rw [left,size]
    exact decodeChunkTaken some (Nat.min_le_left _ _) there
  · obtain ⟨c1,read⟩ := readExactShort steady (Nat.lt_of_not_le there)
    rw [read]
    obtain ⟨m,rfl⟩ := Nat.exists_eq_succ_of_ne_zero some
    have short : c.unread.length < m + 1 := by omega
    have reading : decode (.chunked (m + 1) needCrlf false false) c.unread =
        ⟨[],c.unread,.error .unexpectedEof⟩ := if_pos short
    simp only [NextMeets,reading]
    exact ⟨trivial,by omega,fun _ => trivial⟩

theorem trailersMeet {n} {a c} (steady : Steady c.io) (fits : LinesFit (decodeTrailers c.unread)) :
    NextMeets (.chunked n a true false) c (nextData (.chunked n a true false) c) := by
  have reading : decode (.chunked n a true false) c.unread = decodeTrailers c.unread := by
    simp [decode]
  have ended := readTrailersMeets steady fits
  simp only [nextData,Bool.false_eq_true,if_false,if_true]
  cases trailers : readChunkTrailers c with
  | mk r c1 =>
    rw [trailers] at ended
    cases r with
    | error e => exact stopsNext (reading ▸ ended)
    | ok _ =>
      exact ended

theorem chunkSizeMeets {c} (steady : Steady c.io) (fits : LinesFit (decodeChunks c.unread)) :
    NextMeets (.chunked 0 false false false) c (chunkStart false c) := by
  have sized := readChunkSizeMeets steady (onLineFits (decodeChunksLine _ ▸ fits))
  unfold chunkStart
  simp only [Bool.false_eq_true,if_false]
  cases read : readChunkSize c with
  | mk r c1 =>
    rw [read] at sized
    cases r with
    | error e => exact stopsNext sized
    | ok size =>
      cases size with
      | none => exact stopsNext sized
      | some n =>
        cases n with
        | zero =>
          obtain ⟨still,line,_,reading⟩ := sized
          rw [reading] at fits
          have back : decode (.chunked 0 false false false) c.unread =
              .after [line] [] (decode (.chunked 0 false true false) c1.unread) := reading
          exact nextMeetsBack back (trailersMeet still (fitsAfter fits))
        | succ n =>
          obtain ⟨still,line,_,reading⟩ := sized
          have back : decode (.chunked 0 false false false) c.unread =
              .after [line] [] (decode (.chunked (n + 1) false false false) c1.unread) := reading
          exact nextMeetsBack back (chunkDataMeets (Nat.succ_ne_zero n) still)

theorem chunkStartMeets {needCrlf c} (steady : Steady c.io)
    (fits : LinesFit (decode (.chunked 0 needCrlf false false) c.unread)) :
    NextMeets (.chunked 0 needCrlf false false) c (chunkStart needCrlf c) := by
  cases needCrlf with
  | false => exact chunkSizeMeets steady fits
  | true =>
    have ended := readCrlfMeets steady
    unfold chunkStart
    cases read : readChunkCrlf c with
    | mk r c1 =>
      rw [read] at ended
      cases r with
      | error e => exact stopsNext ended
      | ok _ =>
        have back : decode (.chunked 0 true false false) c.unread =
            .after [] [] (decode (.chunked 0 false false false) c1.unread) := ended.1
        rw [back] at fits
        exact nextMeetsBack back (chunkSizeMeets ended.2 fits)

theorem nextDataMeets {b c} (steady : Steady c.io) (fits : LinesFit (decode b c.unread)) :
    NextMeets b c (nextData b c) := by
  cases b with
  | none => exact ⟨rfl,rfl⟩
  | fixed n =>
    simp only [nextData]
    split
    · rename_i zero
      subst zero
      exact ⟨rfl,rfl⟩
    · rename_i some
      by_cases there : min n readBufSize ≤ c.unread.length
      · obtain ⟨c1,read,left,still⟩ := readExactWhole steady there
        have size : (c.unread.take (min n readBufSize)).length = min n readBufSize := by
          rw [List.length_take]; omega
        rw [read]
        refine ⟨still,[],?_⟩
        rw [left,size]
        exact decodeFixedTaken (Nat.min_le_left _ _) there
      · obtain ⟨c1,read⟩ := readExactShort steady (Nat.lt_of_not_le there)
        rw [read]
        have short : c.unread.length < n := by omega
        have reading : decode (.fixed n) c.unread = ⟨[],c.unread,.error .unexpectedEof⟩ :=
          if_pos short
        simp only [NextMeets,reading]
        exact ⟨trivial,by omega,fun _ => trivial⟩
  | chunked n a t done =>
    simp only [nextData]
    cases done with
    | true => exact ⟨by simp [decode],by simp [decode]⟩
    | false =>
      cases t with
      | true =>
        have reading : decode (.chunked n a true false) c.unread = decodeTrailers c.unread := by
          simp [decode]
        exact trailersMeet steady (reading ▸ fits)
      | false =>
        simp only [Bool.false_eq_true,if_false]
        split
        · rename_i zero
          subst zero
          exact chunkStartMeets steady fits
        · rename_i some
          exact chunkDataMeets some steady
  | eof done =>
    simp only [nextData]
    cases done with
    | true => exact ⟨rfl,rfl⟩
    | false =>
      simp only [Bool.false_eq_true,if_false,readSome]
      by_cases buffered : c.buf ≠ []
      · rw [if_pos buffered]
        refine ⟨steady,[],?_⟩
        rw [takeCut readBufSize c]
        rfl
      · rw [if_neg buffered]
        have empty : c.buf = [] := by simpa using buffered
        obtain ⟨got,io,pulled,still⟩ := pullSteady readBufSize steady
        rw [pulled]
        have whole : c.unread = c.io.bytes := by rw [Conn.unread,empty,List.nil_append]
        cases got with
        | nil =>
          have gone := pullEnd (by decide) pulled
          have left : ({c with io} : Conn).unread = [] := by
            rw [Conn.unread,empty,gone.2]; rfl
          simp only [NextMeets,decode,whole,gone.1,left]
          exact ⟨trivial,trivial⟩
        | cons x xs =>
          refine ⟨still,[],?_⟩
          have left : ({c with io} : Conn).unread = io.bytes := by
            rw [Conn.unread,empty,List.nil_append]
          simp only [decode,Reading.after,List.nil_append,whole,left,(pullBytes pulled).1]

end ZeroServe.H1
