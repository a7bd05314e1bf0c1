import ZeroServe.ProxyUpload

/-! Does a forwarded request frame the body that follows it? The strip and the framing pass rebuild the head; the
backend reads both back off the wire. -/
namespace ZeroServe.Proxy
open ByteText ByteSource ChunkCoding H1 WireMessage

def decimal64 (s : Bytes) : Option Nat := fromStrRadix 10 (2^64) s

def codingsOf (h : Head) : List Bytes := valuesOf h.fields (ascii "transfer-encoding")
def lengthsOf (h : Head) : List Bytes := valuesOf h.fields (ascii "content-length")

def FramedAs (b : Body) (wire payload : Bytes) : Prop :=
  ∃ head body, readHead wire = some (head,body) ∧
    match b with
    | .fixed n => codingsOf head = [] ∧ lengthsOf head ≠ [] ∧
        (∀ v ∈ lengthsOf head, decimal64 v = some n) ∧ body = payload ∧ body.length = n
    | .chunked .. => codingsOf head = [ascii "chunked"] ∧ lengthsOf head = [] ∧
        Coded chunkSize body payload []
    | .none => codingsOf head = [] ∧ lengthsOf head = [] ∧ body = []
    | .eof _ => False

def LengthKept (head : RequestHead) : Prop :=
  ∀ n, requestBodyFromHeaders head = .fixed n →
    headerContainsToken head.headers .connection (ascii "content-length") = false ∧
    ∀ v ∈ head.headers.getAll .contentLength, lengthValue v = some n

theorem wireCodings (start : Bytes) (headers : HeaderMap) : codingsOf ⟨start,wireFields headers⟩ =
      (headers.getAll .transferEncoding).map (fun v => trimAscii v.bytes) :=
  wireValues headers .transferEncoding

theorem wireLengths (start : Bytes) (headers : HeaderMap) : lengthsOf ⟨start,wireFields headers⟩ =
      (headers.getAll .contentLength).map (fun v => trimAscii v.bytes) :=
  wireValues headers .contentLength

theorem decimalWire (v : HeaderValue) : decimal64 (trimAscii v.bytes) = lengthValue v :=
  lengthValueWire v

variable (body : Bytes)

theorem requestCompleteNone {head} (codings : head.headers.getAll .transferEncoding = [])
    (lengths : head.headers.getAll .contentLength = []) :
    (∃ payload, Complete decimal64 chunkSize (encodeRequestHead head ++ body) payload) ↔ body = [] :=
  completeNone (readRequestHead head body)
    (by rw [← codingsOf,wireCodings,codings]; rfl) (by rw [← lengthsOf,wireLengths,lengths]; rfl)

theorem requestCompleteLength {head} (codings : head.headers.getAll .transferEncoding = [])
    (lengths : head.headers.getAll .contentLength ≠ []) :
    (∃ payload, Complete decimal64 chunkSize (encodeRequestHead head ++ body) payload) ↔
      ∀ v ∈ head.headers.getAll .contentLength, lengthValue v = some body.length := by
  rw [completeLength (readRequestHead head body) (by rw [← codingsOf,wireCodings,codings]; rfl)
    (by rw [← lengthsOf,wireLengths]; simpa using lengths),← lengthsOf,wireLengths]
  simp [decimalWire]

theorem requestCompleteChunked {head}
    (codings : head.headers.getAll .transferEncoding = [.ofAscii "chunked"])
    (lengths : head.headers.getAll .contentLength = []) :
    (∃ payload, Complete decimal64 chunkSize (encodeRequestHead head ++ body) payload) ↔
      ∃ payload, Coded chunkSize body payload [] :=
  completeChunked (readRequestHead head body)
    (by
      rw [← codingsOf,wireCodings,codings]
      exact (by decide +kernel : [trimAscii (ascii "chunked")] = [ascii "chunked"]))
    (by rw [← lengthsOf,wireLengths,lengths]; rfl)

theorem wireBodyChunked {b c pieces b' c'} (run : Reads b c pieces b' c') :
    Coded chunkSize (wireBody true pieces) pieces.flatten [] := by
  apply chunkedWire
  intro d mem
  have small := (readsPieces run d mem).2
  have bound : readBufSize < 2^64 := by decide
  omega

theorem requestBodyFixed {head n} (h : requestBodyFromHeaders head = .fixed n) :
    n ≠ 0 ∧ contentLength head.headers = some n := by
  unfold requestBodyFromHeaders at h
  split at h
  · cases h
  · split at h
    · rename_i len found
      split at h
      · cases h
      · rename_i some
        cases h
        exact ⟨some,found⟩
    · cases h

theorem contentLengthPresent {headers n} (h : contentLength headers = some n) : headers.getAll .contentLength ≠ [] := by
  intro empty
  have absent := (FieldMap.getEqNone headers .contentLength).mpr empty
  simp [contentLength,absent] at h

theorem fixedReads {n} {c pieces b' c'} (run : Reads (.fixed n) c pieces b' c') {b2 c2}
    (last : nextData b' c' = (none,b2,c2)) : pieces.flatten.length = n :=
  (readsEnd run last).2

variable (f : Forwarding) (uri : Uri)

theorem forwardedCodings (body : Body) (websocket : Bool)
    (method : Method) (headers : HeaderMap) :
    (forwardedHead f uri true body websocket method headers).headers.getAll .transferEncoding =
      if body.isChunked then [.ofAscii "chunked"] else [] := preparedCodings f body websocket headers

theorem forwardedLengths (body : Body) (websocket : Bool)
    (method : Method) (headers : HeaderMap) :
    (forwardedHead f uri true body websocket method headers).headers.getAll .contentLength =
      if body.isChunked || body = .none || headerContainsToken headers .connection (ascii "content-length") then []
      else headers.getAll .contentLength := by
  have token := nominatedToken websocket headers (n := .contentLength) (by decide +kernel)
  rw [show HeaderName.contentLength.text = ascii "content-length" from rfl] at token
  rw [← token]
  exact preparedLengths f body websocket headers

theorem framedFixed (n : Nat) (websocket : Bool) (method : Method) (headers : HeaderMap)
    {payload} (size : payload.length = n) (present : headers.getAll .contentLength ≠ []) : FramedAs (.fixed n)
        (encodeRequestHead (forwardedHead f uri true (.fixed n) websocket method headers) ++ payload) payload ↔
      headerContainsToken headers .connection (ascii "content-length") = false ∧
        ∀ v ∈ headers.getAll .contentLength, lengthValue v = some n := by
  have codings := forwardedCodings f uri (.fixed n) websocket method headers
  have lengths := forwardedLengths f uri (.fixed n) websocket method headers
  rw [show (Body.fixed n).isChunked = false from rfl] at codings lengths
  unfold FramedAs
  rw [readRequestHead]
  simp only [Option.some.injEq,Prod.mk.injEq,existsAndEq,true_and,wireCodings,wireLengths, codings,lengths,size]
  cases headerContainsToken headers .connection (ascii "content-length") with
  | true => simp
  | false => simp [present,decimalWire]

variable (websocket : Bool) (method : Method)

theorem framedNone (headers : HeaderMap) :
    FramedAs .none (encodeRequestHead (forwardedHead f uri true .none websocket method headers) ++ []) [] := by
  have codings := forwardedCodings f uri .none websocket method headers
  have lengths := forwardedLengths f uri .none websocket method headers
  refine ⟨_,_,readRequestHead _ _,?_,?_,rfl⟩
  · rw [wireCodings,codings]; rfl
  · rw [wireLengths,lengths]; simp

theorem framedChunked {n} {a t d}
    (headers : HeaderMap) {body payload} (coded : Coded chunkSize body payload []) : FramedAs (.chunked n a t d)
      (encodeRequestHead (forwardedHead f uri true (.chunked n a t d) websocket method headers) ++ body) payload := by
  have codings := forwardedCodings f uri (.chunked n a t d) websocket method headers
  have lengths := forwardedLengths f uri (.chunked n a t d) websocket method headers
  refine ⟨_,_,readRequestHead _ _,?_,?_,coded⟩
  · rw [wireCodings,codings]
    exact (by decide +kernel : [trimAscii (ascii "chunked")] = [ascii "chunked"])
  · rw [wireLengths,lengths]; simp [Body.isChunked]

theorem requestBodyNotEof (head : RequestHead) (done : Bool) : requestBodyFromHeaders head ≠ .eof done := by
  unfold requestBodyFromHeaders
  repeat' split
  all_goals simp [newChunked]

def forwardedRequest (f : Forwarding) (uri : Uri) (request : Request) : RequestHead :=
  forwardedHead f uri true request.body (isWebsocketUpgradeRequest request.head.headers)
    request.head.method request.head.headers

theorem forwardedFramingExact {parseUri : Bytes → Option Uri} {client reader : Conn}
    {request : Request} (read : nextRequest parseUri client = (.ok (some request),reader))
    {f : Forwarding} {uri : Uri} {limit : Option Nat} {watch : Bool} {backend : Backend}
    {pending : Option Response} {u : Upload Inbound}
    (sent : sendRequest true limit watch (forwardedRequest f uri request) ⟨request.body,reader⟩
      backend = (.ok (.completed pending),u)) : ∃ wire payload, u.backend.out.written = backend.out.written ++ wire ∧
      Delimits request.body reader.unread payload u.source.reader.unread ∧
      (FramedAs request.body wire payload ↔ LengthKept request.head) := by
  have origin := nextRequestBody read
  obtain ⟨pieces,b1,c1,run,last,written⟩ := sendRequestCompleted sent
  refine ⟨_,pieces.flatten,written,readsEnd run last,?_⟩
  unfold forwardedRequest
  cases kind : request.body with
  | none =>
    rw [kind] at run origin
    have nothing := (readsEnd run last).1
    have kept : LengthKept request.head := by
      intro n fixed
      rw [← origin] at fixed
      cases fixed
    refine iff_of_true ?_ kept
    rw [show Body.none.isChunked = false from rfl,wireBodyPlain,nothing]
    exact framedNone f uri _ _ _
  | fixed n =>
    rw [kind] at run origin
    have size := fixedReads run last
    have present := contentLengthPresent (requestBodyFixed origin.symm).2
    rw [show (Body.fixed n).isChunked = false from rfl,wireBodyPlain, framedFixed f uri n _ _ _ size present]
    constructor
    · intro kept m same
      rw [← origin] at same
      cases same
      exact kept
    · intro kept
      exact kept n origin.symm
  | chunked n a t d =>
    rw [kind] at run origin
    have kept : LengthKept request.head := by
      intro n fixed
      rw [← origin] at fixed
      cases fixed
    exact iff_of_true (framedChunked f uri _ _ _ (wireBodyChunked run)) kept
  | eof done =>
    rw [kind] at origin
    exact absurd origin.symm (requestBodyNotEof request.head done)

def rootUri : Uri := ⟨none,none,[47],none,by decide,by decide,by decide⟩
def onlyRoot (s : Bytes) : Option Uri := if s = [47] then some rootUri else none

def clientOf (text : String) : Conn := ⟨[],⟨ascii text,[]⟩⟩
def bufferOf (text : String) : Conn := ⟨ascii text,⟨[],[]⟩⟩
def idleBackend : Backend := ⟨⟨[],⟨[],[]⟩⟩,⟨[],[],0⟩,[],[]⟩
def caddyForwarding : Forwarding := ⟨.ofAscii "10.0.0.1",.http,true,false⟩

def uploadOf (fields : List (HeaderName × HeaderValue)) : Request :=
  ⟨⟨.ofAscii "POST",rootUri,.http11,⟨(.host,.ofAscii "a")::fields⟩⟩,.fixed 5⟩
def uploadHello (request : Request) : Except SendError ForwardOutcome × Upload Inbound :=
  sendRequest true none true (forwardedRequest caddyForwarding rootUri request)
    ⟨request.body,bufferOf "hello"⟩ idleBackend

theorem plainUploadFramed : FramedAs (.fixed 5)
      (ascii "POST / HTTP/1.1\r\nhost: a\r\ncontent-length: 5\r\n\r\nhello") (ascii "hello") := by
  have read : nextRequest onlyRoot
      (clientOf "POST / HTTP/1.1\r\nHost: a\r\nContent-Length: 5\r\n\r\nhello") =
      (.ok (some (uploadOf [(.contentLength,.ofAscii "5")])),bufferOf "hello") := by
    decide +kernel
  have sent : uploadHello (uploadOf [(.contentLength,.ofAscii "5")]) =
      (.ok (.completed none),(uploadHello (uploadOf [(.contentLength,.ofAscii "5")])).2) :=
    Prod.ext (by decide +kernel) rfl
  have wrote : (uploadHello (uploadOf [(.contentLength,.ofAscii "5")])).2.backend.out.written =
      ascii "POST / HTTP/1.1\r\nhost: a\r\ncontent-length: 5\r\n\r\nhello" := by decide +kernel
  have left : (uploadHello (uploadOf [(.contentLength,.ofAscii "5")])).2.source.reader.unread = [] := by
    decide +kernel
  obtain ⟨wire,payload,written,delimited,exact⟩ := forwardedFramingExact read sent
  rw [wrote,show idleBackend.out.written = [] from rfl,List.nil_append] at written
  have body : payload = ascii "hello" := by
    rw [left] at delimited
    have whole := delimited.1
    rw [List.append_nil] at whole
    exact whole.symm
  rw [written,← body]
  apply exact.mpr
  intro n fixed
  have five : requestBodyFromHeaders (uploadOf [(.contentLength,.ofAscii "5")]).head = .fixed 5 := by
    decide +kernel
  cases five.symm.trans fixed
  decide +kernel

def nominatingUpload : Request :=
  uploadOf [(.connection,.ofAscii "content-length"),(.contentLength,.ofAscii "5")]

theorem nominatedLengthLost :
    nextRequest onlyRoot (clientOf "POST / HTTP/1.1\r\nHost: a\r\nConnection: content-length\r\nContent-Length: 5\r\n\r\nhello") =
      (.ok (some nominatingUpload),bufferOf "hello") ∧ (uploadHello nominatingUpload).1 = .ok (.completed none) ∧
    (uploadHello nominatingUpload).2.backend.out.written = ascii "POST / HTTP/1.1\r\nhost: a\r\n\r\nhello" ∧
    ∀ payload, ¬ FramedAs nominatingUpload.body (ascii "POST / HTTP/1.1\r\nhost: a\r\n\r\nhello") payload := by
  refine ⟨by decide +kernel,by decide +kernel,by decide +kernel,?_⟩
  intro payload framed
  obtain ⟨head,body,read,_,lengths,_⟩ := framed
  have actual : readHead (ascii "POST / HTTP/1.1\r\nhost: a\r\n\r\nhello") =
      some (⟨ascii "POST / HTTP/1.1",[(ascii "host",ascii "a")]⟩,ascii "hello") := by decide +kernel
  cases Option.some.inj (actual.symm.trans read)
  exact lengths (by decide +kernel)

end ZeroServe.Proxy
