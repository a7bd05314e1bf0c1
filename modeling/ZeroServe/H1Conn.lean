import ZeroServe.ByteSource
import ZeroServe.H1Head

/-! The buffered connection of `http/h1.rs` and its readers. `buf` holds the bytes read from the peer and not
consumed; the position, the scratch buffer and the compaction of the source only say where those bytes lie and are
left out. -/
namespace ZeroServe.H1
open ByteText ByteSource

def readBufSize : Nat := 8192
def maxHeaderSize : Nat := 65536
def maxLineSize : Nat := 8192
def maxInterimResponses : Nat := 16

structure Conn where
  buf : Bytes
  io : Source
  deriving DecidableEq

def Conn.unread (c : Conn) : Bytes := c.buf ++ c.io.bytes

def fillBuf (maxReadSize : Nat) (c : Conn) : Except HttpError Nat × Conn :=
  match pull (max maxReadSize 1) c.io with
  | (none,io) => (.error .io,{c with io})
  | (some got,io) => (.ok got.length,⟨c.buf ++ got,io⟩)

def readMore (c : Conn) : Except HttpError Nat × Conn := fillBuf readBufSize c

theorem fillBufUnread {size} {c c' r} (h : fillBuf size c = (r,c')) : c'.unread = c.unread := by
  unfold fillBuf at h
  split at h
  · rename_i io pulled
    cases h
    simp only [Conn.unread,pullFault pulled]
  · rename_i got io pulled
    cases h
    simp only [Conn.unread,(pullBytes pulled).1,List.append_assoc]

theorem fillBufOk {size n} {c c'} (h : fillBuf size c = (.ok n,c')) :
    c'.buf.length = c.buf.length + n ∧ c.io.bytes.length = n + c'.io.bytes.length ∧
      (n = 0 → c'.buf = c.buf ∧ c.io.bytes = []) := by
  unfold fillBuf at h
  split at h
  · cases h
  · rename_i got io pulled
    cases h
    refine ⟨by simp,by simp [(pullBytes pulled).1],fun zero => ?_⟩
    have empty := List.length_eq_zero_iff.mp zero
    subst empty
    exact ⟨by simp,(pullEnd (by omega) pulled).1⟩

/- Read until a pattern is buffered and take what stands before it. Without a match the
buffer may not grow beyond the limit; a capped reader also refuses a late match. -/
def readUntil (pat : Bytes) (limit : Nat) (capped : Bool) (tooBig : HttpError) :
    Nat → Conn → Except HttpError (Option Bytes) × Conn
  | 0, c => (.error .unexpectedEof,c)
  | fuel+1, c =>
    match find pat c.buf with
    | some idx =>
      if capped && decide (limit < idx) then (.error tooBig,c)
      else (.ok (some (c.buf.take idx)),{c with buf := c.buf.drop (idx + pat.length)})
    | none =>
      if limit < c.buf.length then (.error tooBig,c) else
      match readMore c with
      | (.error e,c) => (.error e,c)
      | (.ok 0,c) =>
        if c.buf = [] then (.ok none,c) else (.error .unexpectedEof,c)
      | (.ok _,c) => readUntil pat limit capped tooBig fuel c

def readHeaders (c : Conn) : Except HttpError (Option Bytes) × Conn :=
  readUntil (crlf ++ crlf) maxHeaderSize false .headersTooLarge (c.io.bytes.length + 1) c

def readLine (c : Conn) : Except HttpError (Option Bytes) × Conn :=
  readUntil crlf maxLineSize true .lineTooLong (c.io.bytes.length + 1) c

def UntilResult (pat : Bytes) (c c' : Conn) : Except HttpError (Option Bytes) → Prop
  | .ok (some out) =>
    c.unread = out ++ pat ++ c'.unread ∧ find pat c.unread = some out.length
  | .ok none => c.unread = [] ∧ c'.unread = []
  | .error _ => c'.unread = c.unread

theorem readUntilSpec {pat limit} {capped tooBig fuel} {c c' r}
    (h : readUntil pat limit capped tooBig fuel c = (r,c')) : UntilResult pat c c' r := by
  induction fuel generalizing c with
  | zero => cases h; rfl
  | succ fuel ih =>
    unfold readUntil at h
    split at h
    · rename_i idx found
      split at h
      · cases h; rfl
      · cases h
        have sound := findSound found
        have bound := findBound found
        have inner : (c.buf.take idx).length = idx := by
          rw [List.length_take]; omega
        refine ⟨?_,?_⟩
        · simp only [Conn.unread]
          rw [← List.append_assoc,← sound]
        · rw [inner]
          exact findAppend found
    · split at h
      · cases h; rfl
      · split at h
        · rename_i e c1 more
          cases h
          exact fillBufUnread more
        · rename_i c1 more
          have none := (fillBufOk more).2.2 rfl
          have same := fillBufUnread more
          split at h
          · rename_i empty
            cases h
            have gone : c.unread = [] := by
              rw [Conn.unread,none.2,← none.1,empty]; rfl
            exact ⟨gone,same ▸ gone⟩
          · cases h
            exact same
        · rename_i n c1 more
          have rest := ih h
          have same := fillBufUnread more
          cases r with
          | error e => exact Eq.trans rest same
          | ok out =>
            cases out with
            | none => exact ⟨same ▸ rest.1,rest.2⟩
            | some out => exact ⟨same ▸ rest.1,same ▸ rest.2⟩

def readExactLoop (len : Nat) : Nat → Bytes → Conn → Except HttpError Bytes × Conn
  | 0, _, c => (.error .unexpectedEof,c)
  | fuel+1, out, c =>
    if len ≤ out.length then (.ok out,c)
    else if c.buf ≠ [] then
      let toCopy := min c.buf.length (len - out.length)
      readExactLoop len fuel (out ++ c.buf.take toCopy) {c with buf := c.buf.drop toCopy}
    else
      match pull (min readBufSize (len - out.length)) c.io with
      | (none,io) => (.error .io,{c with io})
      | (some [],io) => (.error .unexpectedEof,{c with io})
      | (some got,io) => readExactLoop len fuel (out ++ got) {c with io}

def readExact (len : Nat) (c : Conn) : Except HttpError Bytes × Conn :=
  readExactLoop len (len + 1) [] c

def readSome (c : Conn) : Except HttpError (Option Bytes) × Conn :=
  if c.buf ≠ [] then
    (.ok (some (c.buf.take readBufSize)),{c with buf := c.buf.drop readBufSize})
  else
    match pull readBufSize c.io with
    | (none,io) => (.error .io,{c with io})
    | (some [],io) => (.ok none,{c with io})
    | (some got,io) => (.ok (some got),{c with io})

def parseChunkSizeLine (line : Bytes) : Except HttpError Nat :=
  if ! validUtf8 line then .error .invalidChunked else
  let sizePart := strTrim (line.takeWhile (· != 59))
  if sizePart = [] then .error .invalidChunked
  else orInvalid .invalidChunked (fromStrRadix 16 (2^64) sizePart)

def chunkSize (line : Bytes) : Option Nat := (parseChunkSizeLine line).toOption

def readChunkSize (c : Conn) : Except HttpError (Option Nat) × Conn :=
  match readLine c with
  | (.error e,c) => (.error e,c)
  | (.ok none,c) => (.ok none,c)
  | (.ok (some line),c) => ((parseChunkSizeLine line).map some,c)

def readChunkCrlf (c : Conn) : Except HttpError Unit × Conn :=
  match readExact 2 c with
  | (.error e,c) => (.error e,c)
  | (.ok bytes,c) => if bytes = crlf then (.ok (),c) else (.error .invalidChunked,c)

def readChunkTrailersLoop : Nat → Conn → Except HttpError Unit × Conn
  | 0, c => (.error .unexpectedEof,c)
  | fuel+1, c =>
    match readLine c with
    | (.error e,c) => (.error e,c)
    | (.ok none,c) => (.error .unexpectedEof,c)
    | (.ok (some line),c) => if line = [] then (.ok (),c) else readChunkTrailersLoop fuel c

def readChunkTrailers (c : Conn) : Except HttpError Unit × Conn :=
  readChunkTrailersLoop (c.unread.length + 1) c

theorem readExactLoopSpec {len fuel} {out got c c'} (within : out.length ≤ len)
    (h : readExactLoop len fuel out c = (.ok got,c')) : got.length = len ∧ out ++ c.unread = got ++ c'.unread := by
  induction fuel generalizing out c with
  | zero => cases h
  | succ fuel ih =>
    unfold readExactLoop at h
    split at h
    · cases h
      exact ⟨by omega,rfl⟩
    · rename_i more
      split at h
      · rename_i buffered
        have step := ih (by simp only [List.length_append,List.length_take]; omega) h
        refine ⟨step.1,?_⟩
        rw [← step.2]
        simp only [Conn.unread,List.append_assoc]
        rw [← List.append_assoc (c.buf.take _),List.take_append_drop]
      · rename_i drained
        have none : c.buf = [] := by simpa using drained
        split at h
        · cases h
        · cases h
        · rename_i pulled
          have cut := pullBytes pulled
          have step := ih (by simp only [List.length_append]; omega) h
          refine ⟨step.1,?_⟩
          rw [← step.2]
          simp only [Conn.unread,none,List.nil_append,cut.1,List.append_assoc]

theorem readExactSpec {len} {got c c'} (h : readExact len c = (.ok got,c')) :
    got.length = len ∧ c.unread = got ++ c'.unread :=
  readExactLoopSpec (Nat.zero_le _) h

theorem readSomeSpec {c c' r} (h : readSome c = (.ok r,c')) : match r with
    | some got => got ≠ [] ∧ got.length ≤ readBufSize ∧ c.unread = got ++ c'.unread
    | none => c.unread = [] ∧ c'.unread = [] := by
  unfold readSome at h
  split at h
  · rename_i buffered
    cases h
    refine ⟨?_,List.length_take_le _ _,?_⟩
    · intro empty
      rcases List.take_eq_nil_iff.mp empty with zero | nil
      · exact absurd zero (by decide)
      · exact buffered nil
    · simp only [Conn.unread,← List.append_assoc,List.take_append_drop]
  · rename_i drained
    have none : c.buf = [] := by simpa using drained
    split at h
    · cases h
    · rename_i io pulled
      cases h
      have gone := pullEnd (by decide) pulled
      exact ⟨by simp [Conn.unread,none,gone.1],by simp [Conn.unread,none,gone.2]⟩
    · rename_i got io some pulled
      cases h
      refine ⟨fun empty => some (by rw [empty]),(pullBytes pulled).2,?_⟩
      simp [Conn.unread,none,(pullBytes pulled).1]

theorem readLineSpec {c c' line} (h : readLine c = (.ok (some line),c')) :
    c.unread = line ++ crlf ++ c'.unread ∧ CrlfFree line := by
  obtain ⟨cut,found⟩ := readUntilSpec h
  refine ⟨cut,?_⟩
  have free := findCrlfFree found
  rwa [cut,List.append_assoc,List.take_left] at free

theorem chunkSizeRadix {n} (small : n < 2^64) : chunkSize (ChunkCoding.toRadix 16 n) = some n := by
  have range : ∀ b ∈ ChunkCoding.toRadix 16 n, 48 ≤ b ∧ b ≤ 70 := by
    intro b mem
    obtain ⟨d,hd,rfl⟩ := ChunkCoding.toRadixBytes 16 n (by omega) (by omega) b mem
    exact ChunkCoding.digitByteRange hd
  have digits : ∀ b : UInt8, 48 ≤ b ∧ b ≤ 70 → b < 128 ∧ asciiWhitespace b = false ∧
      plainByte b = true ∧ b ≠ 43 := by decide +kernel
  have utf8 :=
    validUtf8Low (fun b mem => (digits b (range b mem)).1)
  have whole : (ChunkCoding.toRadix 16 n).takeWhile (· != 59) = ChunkCoding.toRadix 16 n := by
    apply List.takeWhile_eq_self_iff.mpr
    intro b mem
    obtain ⟨d,hd,rfl⟩ := ChunkCoding.toRadixBytes 16 n (by omega) (by omega) b mem
    interval_cases d <;> decide
  have trimmed : strTrim (ChunkCoding.toRadix 16 n) = ChunkCoding.toRadix 16 n := by
    rw [strTrimPlain (fun b mem => (digits b (range b mem)).2.2.1)]
    exact trimAsciiNone (fun b mem => (digits b (range b mem)).2.1)
  have unsigned : (ChunkCoding.toRadix 16 n).head? ≠ some 43 := by
    intro plus
    exact (digits 43 (range 43 (List.mem_of_mem_head? plus))).2.2.2 rfl
  have nonempty := ChunkCoding.toRadixNeNil 16 n
  have value := ChunkCoding.readDigitsToRadix 16 (2^64) n (by omega) (by omega) small
  simp only [chunkSize,parseChunkSizeLine,utf8,whole,trimmed,nonempty,fromStrRadix,if_neg unsigned, value,orInvalid]
  rfl

theorem chunkedWire {pieces} (small : ∀ d ∈ pieces, d.length < 2^64) :
    ChunkCoding.Coded chunkSize (ChunkCoding.wireBody true pieces) pieces.flatten [] :=
  ChunkCoding.wireBodyCoded (fun d mem => chunkSizeRadix (small d mem)) (by decide +kernel)

theorem readChunkSizeSpec {c c' n} (h : readChunkSize c = (.ok (some n),c')) :
    ∃ line, c.unread = line ++ crlf ++ c'.unread ∧ CrlfFree line ∧ chunkSize line = some n := by
  unfold readChunkSize at h
  split at h
  · cases h
  · cases h
  · rename_i line c1 read
    have spec := readLineSpec read
    cases parsed : parseChunkSizeLine line with
    | error e => rw [parsed] at h; cases h
    | ok m =>
      rw [parsed] at h
      cases h
      exact ⟨line,spec.1,spec.2,by rw [chunkSize,parsed]; rfl⟩

theorem readChunkCrlfSpec {c c'} (h : readChunkCrlf c = (.ok (),c')) : c.unread = crlf ++ c'.unread := by
  unfold readChunkCrlf at h
  split at h
  · cases h
  · rename_i bytes c1 read
    split at h
    · rename_i same
      cases h
      rw [← same]
      exact (readExactSpec read).2
    · cases h

theorem readChunkTrailersLoopSpec {fuel} {c c'} (h : readChunkTrailersLoop fuel c = (.ok (),c')) :
    ChunkCoding.Trailers c.unread c'.unread := by
  induction fuel generalizing c with
  | zero => cases h
  | succ fuel ih =>
    unfold readChunkTrailersLoop at h
    split at h
    · cases h
    · cases h
    · rename_i line c1 read
      obtain ⟨cut,free⟩ := readLineSpec read
      split at h
      · rename_i empty
        cases h
        rw [cut,empty]
        exact .done _
      · rename_i more
        rw [cut]
        exact .line free more (ih h)

theorem readChunkTrailersSpec {c c'} (h : readChunkTrailers c = (.ok (),c')) :
    ChunkCoding.Trailers c.unread c'.unread := readChunkTrailersLoopSpec h

end ZeroServe.H1
