import ZeroServe.DecimalText
import ZeroServe.RequestFraming

/-! Which body the head of an accepted request announces, by the rules of RFC 9112 section 6.3:
Transfer-Encoding over all its lines first, then Content-Length over all its lines. -/
namespace ZeroServe.H1
open ByteText DecimalText

def codingsIn (v : HeaderValue) : List Bytes := (v.bytes.splitOn 44).map trimAscii

def chunkedCoding (coding : Bytes) : Bool := eqIgnoreAsciiCase coding (ascii "chunked")

def finalCoding (headers : HeaderMap) : Option Bytes :=
  (((headers.getAll .transferEncoding).flatMap codingsIn).filter (· ≠ [])).getLast?

def EndsChunked (headers : HeaderMap) : Prop := ∃ coding, finalCoding headers = some coding ∧ chunkedCoding coding

def AllLengths (headers : HeaderMap) (n : Nat) : Prop :=
  headers.getAll .contentLength ≠ [] ∧
    ∀ v ∈ headers.getAll .contentLength, decimalValue (trimAscii v.bytes) = some n

/- What RFC 9112 section 6.3 asks of an accepted request. -/
structure Rfc9112 (headers : HeaderMap) (body : Body) : Prop where
  chunked : body = newChunked ↔ headers.getAll .transferEncoding ≠ [] ∧ EndsChunked headers
  fixed : ∀ n, 0 < n → (body = .fixed n ↔ headers.getAll .transferEncoding = [] ∧ AllLengths headers n)
  none : body = .none ↔ headers.getAll .transferEncoding = [] ∧
    (headers.getAll .contentLength = [] ∨ AllLengths headers 0)
  rest : (headers.getAll .transferEncoding ≠ [] ∧ EndsChunked headers) ∨
    (headers.getAll .transferEncoding = [] ∧ (headers.getAll .contentLength = [] ∨ ∃ n, AllLengths headers n))

def FramingPlain (headers : HeaderMap) : Prop :=
  (EndsChunked headers ∧ ∃ first ∈ (headers.getAll .transferEncoding).head?,
    first.bytes.all visibleByte ∧ (codingsIn first).any chunkedCoding) ∨
  (headers.getAll .transferEncoding = [] ∧ (headers.getAll .contentLength = [] ∨ ∃ n < 2 ^ 64, AllLengths headers n))

theorem chunkedToken (v : HeaderValue) :
    valueHasToken (ascii "chunked") v = (v.bytes.all visibleByte && (codingsIn v).any chunkedCoding) := by
  unfold valueHasToken HeaderValue.toStr
  split
  · rename_i s text
    split at text
    · rename_i visible
      cases text
      have parts : listParts v.bytes = codingsIn v := by
        refine List.map_congr_left fun part mem => strTrimPlain fun b inner => ?_
        exact visiblePlain b (List.all_eq_true.mp visible b (splitOnMem mem inner))
      rw [visible,parts]
      rfl
    · cases text
  · rename_i text
    split at text
    · cases text
    · rename_i hidden
      simp only [Bool.not_eq_true] at hidden
      rw [hidden]
      rfl

theorem chunkedFirst (headers : HeaderMap) : hasChunked headers = true ↔
    ∃ first ∈ (headers.getAll .transferEncoding).head?,
      first.bytes.all visibleByte ∧ (codingsIn first).any chunkedCoding := by
  rw [hasChunked,FieldMap.get]
  cases (headers.getAll .transferEncoding).head? with
  | none => simp
  | some first => simp [chunkedToken]

theorem unchunked {headers} (absent : headers.getAll .transferEncoding = []) : hasChunked headers = false := by
  rw [hasChunked,(FieldMap.getEqNone headers .transferEncoding).mpr absent]

theorem lengthsRead {headers n} (lengths : AllLengths headers n) :
    contentLength headers = if n < 2 ^ 64 then some n else none := by
  obtain ⟨first,rest,all⟩ := List.exists_cons_of_ne_nil lengths.1
  have value := lengths.2 first (by simp [all])
  have first_ : headers.get .contentLength = some first := by
    rw [FieldMap.get,all]
    rfl
  rw [contentLength,first_,← decimalRead (2 ^ 64) (by decide) value,lengthValueWire]
  rfl

theorem lengthsSame {headers n m} (lengths : AllLengths headers n) (others : AllLengths headers m) : n = m := by
  obtain ⟨first,rest,all⟩ := List.exists_cons_of_ne_nil lengths.1
  have same := (lengths.2 first (by simp [all])).symm.trans (others.2 first (by simp [all]))
  exact Option.some.inj same

theorem endsSome {headers} (ends : EndsChunked headers) : headers.getAll .transferEncoding ≠ [] := by
  obtain ⟨coding,final,_⟩ := ends
  intro absent
  rw [finalCoding,absent] at final
  cases final

theorem chunkedBody {head} (chunked : hasChunked head.headers = true) : requestBodyFromHeaders head = newChunked := by
  rw [requestBodyFromHeaders,if_pos chunked]

theorem lengthBody {head} (absent : head.headers.getAll .transferEncoding = []) : requestBodyFromHeaders head =
      match contentLength head.headers with
      | some len => if len = 0 then .none else .fixed len
      | none => .none := by
  rw [requestBodyFromHeaders,unchunked absent]
  rfl

theorem plainFollows {head} (plain : FramingPlain head.headers) :
    Rfc9112 head.headers (requestBodyFromHeaders head) := by
  rcases plain with ⟨ends,first⟩ | ⟨absent,empty | ⟨n,small,lengths⟩⟩
  · have present := endsSome ends
    rw [chunkedBody ((chunkedFirst _).mpr first)]
    exact ⟨by simp [present,ends],by simp [present,newChunked],by simp [present,newChunked],.inl ⟨present,ends⟩⟩
  · have unset : contentLength head.headers = none := by
      rw [contentLength,(FieldMap.getEqNone _ _).mpr empty]
      rfl
    rw [lengthBody absent,unset]
    exact ⟨by simp [absent,newChunked],by simp [AllLengths,empty],by simp [absent,empty],.inr ⟨absent,.inl empty⟩⟩
  · rw [lengthBody absent,lengthsRead lengths,if_pos small]
    have only (m : Nat) : AllLengths head.headers m ↔ n = m :=
      ⟨lengthsSame lengths,fun same => same ▸ lengths⟩
    have present := lengths.1
    refine ⟨?_,?_,?_,.inr ⟨absent,.inr ⟨n,lengths⟩⟩⟩
    · by_cases zero : n = 0 <;> simp [absent,newChunked,zero]
    · intro m given
      by_cases zero : n = 0
      · simp [only,zero,Nat.ne_of_lt given]
      · simp [absent,only,zero]
    · by_cases zero : n = 0 <;> simp [absent,only,present]

theorem followsPlain {head} (follows : Rfc9112 head.headers (requestBodyFromHeaders head)) :
    FramingPlain head.headers := by
  rcases follows.rest with ⟨present,ends⟩ | ⟨absent,empty | ⟨n,lengths⟩⟩
  · refine .inl ⟨ends,(chunkedFirst _).mp ?_⟩
    by_contra unmarked
    have chunked := follows.chunked.mpr ⟨present,ends⟩
    rw [requestBodyFromHeaders,if_neg unmarked] at chunked
    split at chunked
    · split at chunked <;> cases chunked
    · cases chunked
  · exact .inr ⟨absent,.inl empty⟩
  · refine .inr ⟨absent,.inr ⟨n,?_,lengths⟩⟩
    by_contra large
    have fixed := (follows.fixed n (by omega)).mpr ⟨absent,lengths⟩
    rw [lengthBody absent,lengthsRead lengths,if_neg large] at fixed
    cases fixed

theorem framingExact {parseUri : Bytes → Option Uri} {c c' : Conn} {request : Request}
    (read : nextRequest parseUri c = (.ok (some request),c')) :
    Rfc9112 request.head.headers request.body ↔ FramingPlain request.head.headers := by
  rw [nextRequestBody read]
  exact ⟨followsPlain,plainFollows⟩

def framedUpload (fields : List (HeaderName × HeaderValue)) (body : Body) : Request :=
  ⟨⟨.ofAscii "POST",Proxy.rootUri,.http11,⟨fields⟩⟩,body⟩

theorem gzipChunkedFramed :
    nextRequest Proxy.onlyRoot (Proxy.clientOf "POST / HTTP/1.1\r\nTransfer-Encoding: gzip, Chunked\r\n\r\n") =
      (.ok (some (framedUpload [(.transferEncoding,.ofAscii "gzip, Chunked")] newChunked)),Proxy.bufferOf "") ∧
    Rfc9112 ⟨[(.transferEncoding,.ofAscii "gzip, Chunked")]⟩ newChunked := by
  have read : nextRequest Proxy.onlyRoot
      (Proxy.clientOf "POST / HTTP/1.1\r\nTransfer-Encoding: gzip, Chunked\r\n\r\n") =
      (.ok (some (framedUpload [(.transferEncoding,.ofAscii "gzip, Chunked")] newChunked)),Proxy.bufferOf "") := by
    decide +kernel
  refine ⟨read,(framingExact read).mpr (.inl ⟨⟨ascii "Chunked",?_,?_⟩,_,rfl,?_,?_⟩)⟩ <;> decide +kernel

theorem conflictTaken : nextRequest Proxy.onlyRoot
      (Proxy.clientOf "POST / HTTP/1.1\r\nContent-Length: 5\r\nContent-Length: 6\r\n\r\nhello!") =
      (.ok (some (framedUpload [(.contentLength,.ofAscii "5"),(.contentLength,.ofAscii "6")] (.fixed 5))),
        Proxy.bufferOf "hello!") ∧
    ¬ Rfc9112 ⟨[(.contentLength,.ofAscii "5"),(.contentLength,.ofAscii "6")]⟩ (.fixed 5) := by
  refine ⟨by decide +kernel,fun follows => ?_⟩
  have listed := follows.rest
  have codings : (⟨[(.contentLength,.ofAscii "5"),(.contentLength,.ofAscii "6")]⟩ : HeaderMap).getAll
      .transferEncoding = [] := by decide +kernel
  have lengths : (⟨[(.contentLength,.ofAscii "5"),(.contentLength,.ofAscii "6")]⟩ : HeaderMap).getAll
      .contentLength = [.ofAscii "5",.ofAscii "6"] := by decide +kernel
  have five : decimalValue (trimAscii (HeaderValue.ofAscii "5").bytes) = some 5 := by decide +kernel
  have six : decimalValue (trimAscii (HeaderValue.ofAscii "6").bytes) = some 6 := by decide +kernel
  simp [codings,lengths,AllLengths,five,six] at listed

end ZeroServe.H1
