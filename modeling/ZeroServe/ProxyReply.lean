import ZeroServe.H1Flow
import ZeroServe.ProxyUpload

/-! What the server writes to an HTTP/1.1 client: response heads, fixed responses and relayed bodies, after the header
passes. Response hooks and the compression encoders are parameters. -/
namespace ZeroServe.Proxy
open ByteText ByteSource ChunkCoding H1

inductive StreamHint where
  | none
  | fixed
  | stream
  deriving DecidableEq

def hint : Body → StreamHint
  | .none => .none
  | .fixed _ => .fixed
  | .chunked .. => .stream
  | .eof _ => .stream

structure HookOutcome where
  status : Nat
  headers : HeaderMap
  continueRequest : Bool
  deriving DecidableEq

structure Encoder where
  applyEncodingHeaders : HeaderMap → HeaderMap
  ready : Bool
  push : List Bytes → Bytes → Option Bytes
  finish : List Bytes → Option Bytes

structure EncodeState where
  decide : Nat → HeaderMap → Option Nat → Option Encoder
  minLength : Nat

/- What a request's scripts ask of every response to it. Metadata holds the entries under
`zs.response.header.`: the rest of the key and the value. -/
structure Rules where
  early : HeaderMap
  metadata : List (Bytes × Bytes)
  hooks : Option (Nat → HeaderMap → HookOutcome)
  encode : Option EncodeState

def noRules : Rules := ⟨.empty,[],none,none⟩

def applyMetadataResponseHeaders (metadata : List (Bytes × Bytes)) (headers : HeaderMap) :
    HeaderMap :=
  metadata.foldl (fun headers entry =>
    if strTrim entry.1 = [] then headers else
    match HeaderName.fromBytes (strTrim entry.1),HeaderValue.fromBytes entry.2 with
    | some name,some value => headers.insert name value
    | _,_ => headers) headers

def appendAll (name : HeaderName) (values : List HeaderValue) (headers : HeaderMap) : HeaderMap :=
  values.foldl (fun headers v => headers.append name v) headers

def earlyKeys (early : HeaderMap) : List HeaderName := (early.pairs.map (·.1)).dedup

def overlayEarly (early headers : HeaderMap) : HeaderMap :=
  (earlyKeys early).foldl (fun headers name =>
    if name = .contentLength then headers else
    let headers := if name = .contentType || name = .etag || ! headers.containsKey name
      then headers.remove name else headers
    appendAll name (early.getAll name) headers) headers

def prependEarly (early headers : HeaderMap) : HeaderMap :=
  (earlyKeys early).foldl (fun headers name =>
    if name = .contentLength then headers else
    appendAll name (early.getAll name ++ headers.getAll name) (headers.remove name)) headers

/- `prepare_reverse_proxy_raw_h1_response_headers`. Without hooks the metadata pass inside
the hook runner is the one repeated here. -/
def prepareProxyResponse (rules : Rules) (status : Nat) (headers : HeaderMap) : HookOutcome :=
  let o := match rules.hooks with
    | some run => run status headers
    | none => ⟨status,headers,false⟩
  {o with headers := applyMetadataResponseHeaders rules.metadata (prependEarly rules.early o.headers)}

def rawStatusAllowsBody (status : Nat) : Bool :=
  ! (decide (100 ≤ status) && decide (status < 200)) && status != 204 && status != 304

def connectionHasClose (headers : HeaderMap) : Bool :=
  match headers.get .connection with
  | some v => valueHasToken (ascii "close") v
  | none => false

def shouldReuseProxyConnection (version : Version) (headers : HeaderMap) : Bool :=
  version == .http11 && ! connectionHasClose headers

def canUseRawFixedProxyResponse (rules : Rules) (isWsRequest headOnly : Bool) : Bool :=
  ! isWsRequest && ! headOnly && rules.encode.isNone && rules.early.pairs.isEmpty &&
  rules.hooks.isNone && rules.metadata.isEmpty

def shouldSendProxyBodyRaw (status : Nat) (bodyHint : StreamHint) (headOnly : Bool) : Bool :=
  if headOnly then false
  else if ! rawStatusAllowsBody status then false
  else bodyHint != .none

def applyProxyResponseHeaders (bodyHint : StreamHint) (sendBody : Bool) (headers : HeaderMap) :
    HeaderMap :=
  if ! sendBody then headers.remove .transferEncoding else
  match bodyHint with
  | .none => (headers.remove .contentLength).remove .transferEncoding
  | .fixed => headers.remove .transferEncoding
  | .stream => (headers.remove .contentLength).insert .transferEncoding (.ofAscii "chunked")

def restoreFixedProxyContentLength (bodyHint : StreamHint) (length : Option HeaderValue)
    (headers : HeaderMap) : HeaderMap :=
  if bodyHint != .fixed || headers.containsKey .contentLength then headers else
  match length with
  | some value => headers.insert .contentLength value
  | none => headers

def stripNoBodyHeaders (headers : HeaderMap) : HeaderMap :=
  (headers.remove .contentLength).remove .transferEncoding

def reasons : List (Nat × String) :=
  [(100,"Continue"),(101,"Switching Protocols"),(102,"Processing"),(103,"Early Hints"),(200,"OK"),
   (201,"Created"),(202,"Accepted"),(203,"Non Authoritative Information"),(204,"No Content"),
   (205,"Reset Content"),(206,"Partial Content"),(207,"Multi-Status"),(208,"Already Reported"),
   (226,"IM Used"),(300,"Multiple Choices"),(301,"Moved Permanently"),(302,"Found"),
   (303,"See Other"),(304,"Not Modified"),(305,"Use Proxy"),(307,"Temporary Redirect"),
   (308,"Permanent Redirect"),(400,"Bad Request"),(401,"Unauthorized"),(402,"Payment Required"),
   (403,"Forbidden"),(404,"Not Found"),(405,"Method Not Allowed"),(406,"Not Acceptable"),
   (407,"Proxy Authentication Required"),(408,"Request Timeout"),(409,"Conflict"),(410,"Gone"),
   (411,"Length Required"),(412,"Precondition Failed"),(413,"Payload Too Large"),
   (414,"URI Too Long"),(415,"Unsupported Media Type"),(416,"Range Not Satisfiable"),
   (417,"Expectation Failed"),(418,"I'm a teapot"),(421,"Misdirected Request"),
   (422,"Unprocessable Entity"),(423,"Locked"),(424,"Failed Dependency"),(425,"Too Early"),
   (426,"Upgrade Required"),(428,"Precondition Required"),(429,"Too Many Requests"),
   (431,"Request Header Fields Too Large"),(451,"Unavailable For Legal Reasons"),
   (500,"Internal Server Error"),(501,"Not Implemented"),(502,"Bad Gateway"),
   (503,"Service Unavailable"),(504,"Gateway Timeout"),(505,"HTTP Version Not Supported"),
   (506,"Variant Also Negotiates"),(507,"Insufficient Storage"),(508,"Loop Detected"),
   (510,"Not Extended"),(511,"Network Authentication Required")]

def canonicalReason (status : Nat) : Option Bytes :=
  (reasons.find? (·.1 == status)).map (fun r => ascii r.2)

def pad3 (status : Nat) : Bytes :=
  let digits := toRadix 10 status
  List.replicate (3 - digits.length) 48 ++ digits

def responseLine (status : Nat) : Bytes :=
  ascii "HTTP/1.1 " ++ pad3 status ++ [32] ++
  match canonicalReason status with
  | some reason => reason
  | none => ascii "status code " ++ toRadix 10 status

def encodeResponseHeadRaw (status : Nat) (headers : HeaderMap) : Bytes :=
  responseLine status ++ crlf ++ headers.pairs.flatMap headerLine ++ crlf

def writeResponseHeadRaw (status : Nat) (headers : HeaderMap) (w : Sink) : Bool × Sink :=
  writeAll (encodeResponseHeadRaw status headers) w

def coalesceLimit : Nat := 16384

def writeResponseHeadAndBodyRaw (status : Nat) (headers : HeaderMap) (body : Bytes) (w : Sink) :
    Bool × Sink :=
  let head := encodeResponseHeadRaw status headers
  if head.length + body.length ≤ coalesceLimit then writeAll (head ++ body) w else
  match writeAll head w with
  | (false,w) => (false,w)
  | (true,w) => writeAll body w

structure FixedResponse where
  status : StatusCode
  headers : HeaderMap
  body : Bytes
  deriving DecidableEq

structure SendOutcome where
  keepClient : Bool
  status : Nat
  deriving DecidableEq

def lengthHeader (n : Nat) : HeaderValue :=
  ⟨toRadix 10 n,List.all_eq_true.mpr (fun b mem => by
    obtain ⟨d,hd,rfl⟩ := toRadixBytes 10 n (by omega) (by omega) b mem
    interval_cases d <;> decide)⟩

def ensureContentLength (res : FixedResponse) : FixedResponse :=
  if ! res.headers.containsKey .contentLength && ! res.headers.containsKey .transferEncoding then
    {res with headers := res.headers.insert .contentLength (lengthHeader res.body.length)}
  else res

/- Hooks see a fixed response's status and headers and may change both. -/
def prepareFixedResponse (rules : Rules) (res : FixedResponse) : FixedResponse :=
  let res := {res with headers :=
    applyMetadataResponseHeaders rules.metadata (overlayEarly rules.early res.headers)}
  let res := ensureContentLength res
  match rules.hooks with
  | none => res
  | some run =>
    let o := run res.status.code res.headers
    {res with status := (StatusCode.fromU16 o.status).getD res.status,headers := o.headers}

def sendFixed (rules : Rules) (res : FixedResponse) (w : Sink) : SendOutcome × Sink :=
  let res := prepareFixedResponse rules res
  let sendBody := rawStatusAllowsBody res.status.code
  let headers := if sendBody then res.headers else stripNoBodyHeaders res.headers
  let w := if sendBody && res.body != [] then
      (writeResponseHeadAndBodyRaw res.status.code headers res.body w).2
    else (writeResponseHeadRaw res.status.code headers w).2
  (⟨! connectionHasClose headers,res.status.code⟩,w)

def textResponse (status : StatusCode) (body : Bytes) : FixedResponse :=
  ⟨status,⟨[(.server,.ofAscii "zeroserve"),(.contentType,.ofAscii "text/plain; charset=utf-8"),
    (.contentLength,lengthHeader body.length)]⟩,body⟩

def payloadTooLarge : FixedResponse :=
  textResponse ⟨413,by decide⟩ (ascii "Request Entity Too Large")

def proxyWriteBatchSize : Nat := 65536

structure Relay where
  body : Body
  conn : Conn
  client : Sink
  batch : Bytes
  deriving DecidableEq

def writeProxyBodyBatch (r : Relay) : Bool × Relay :=
  if r.batch = [] then (true,r) else
  let (ok,client) := writeAll r.batch r.client
  (ok,{r with client,batch := []})

def relayLoop (size : Nat) (rechunk : Bool) : Nat → Relay → Bool × Relay
  | 0, r => (false,r)
  | fuel+1, r =>
    match tryDrainInto r.body r.conn r.batch (size - r.batch.length) rechunk with
    | (.error _,body,conn,batch) => (false,{r with body,conn,batch})
    | (.ok .copied,body,conn,batch) =>
      if size ≤ batch.length then
        match writeProxyBodyBatch {r with body,conn,batch} with
        | (false,r) => (false,r)
        | (true,r) => relayLoop size rechunk fuel r
      else relayLoop size rechunk fuel {r with body,conn,batch}
    | (.ok .needRead,body,conn,batch) =>
      if batch ≠ [] then
        match writeProxyBodyBatch {r with body,conn,batch} with
        | (false,r) => (false,r)
        | (true,r) => relayLoop size rechunk fuel r
      else
        match fill body conn size with
        | (.error _,body,conn) => (false,{r with body,conn,batch})
        | (.ok _,body,conn) => relayLoop size rechunk fuel {r with body,conn,batch}
    | (.ok .done,body,conn,batch) =>
      writeProxyBodyBatch
        {r with body,conn,batch := if rechunk then batch ++ lastChunk else batch}

def relayFuel (c : Conn) : Nat := 2 * c.buf.length + 3 * c.io.bytes.length + 6

def forwardProxyBodyOf (size : Nat) (body : Body) (conn : Conn) (client : Sink) : Bool × Relay :=
  match hint body with
  | .none => (true,⟨body,conn,client,[]⟩)
  | .fixed => relayLoop size false (relayFuel conn) ⟨body,conn,client,[]⟩
  | .stream => relayLoop size true (relayFuel conn) ⟨body,conn,client,[]⟩

def forwardProxyBody : Body → Conn → Sink → Bool × Relay := forwardProxyBodyOf proxyWriteBatchSize

theorem writeBatchOk {r r'} (h : writeProxyBodyBatch r = (true,r')) :
    r'.client.written = r.client.written ++ r.batch ∧ r'.batch = [] ∧ r'.body = r.body ∧ r'.conn = r.conn := by
  unfold writeProxyBodyBatch at h
  split at h
  · rename_i empty
    cases h
    exact ⟨by rw [empty,List.append_nil],empty,rfl,rfl⟩
  · cases h' : writeAll r.batch r.client with
    | mk ok client =>
      rw [h'] at h
      cases h
      exact ⟨writeAllOk h',rfl,rfl,rfl⟩

theorem relayLoopSpec {rechunk fuel} {r r'} (h : relayLoop proxyWriteBatchSize rechunk fuel r = (true,r')) :
    ∃ pieces, Delimits r.body r.conn.unread pieces.flatten r'.conn.unread ∧
      r'.client.written = r.client.written ++ (r.batch ++ wireBody rechunk pieces) ∧
      ∀ d ∈ pieces, d.length ≤ proxyWriteBatchSize := by
  induction fuel generalizing r with
  | zero => cases h
  | succ fuel ih =>
    unfold relayLoop at h
    split at h
    · cases h
    · rename_i body conn batch drained
      obtain ⟨data,_,small,wrote,next⟩ := tryDrainStep drained
      have bound : data.length ≤ proxyWriteBatchSize := by
        have limit : 1 ≤ proxyWriteBatchSize := by decide
        omega
      split at h
      · split at h
        · cases h
        · rename_i r1 written
          obtain ⟨client,empty,sameBody,sameConn⟩ := writeBatchOk written
          obtain ⟨pieces,delimited,out,sizes⟩ := ih h
          rw [sameBody,sameConn] at delimited
          refine ⟨data::pieces,next _ _ delimited,?_,?_⟩
          · rw [out,client,empty]
            simp [wrote,wireBody]
          · simpa [bound] using sizes
      · obtain ⟨pieces,delimited,out,sizes⟩ := ih h
        refine ⟨data::pieces,next _ _ delimited,?_,?_⟩
        · rw [out]
          simp [wrote,wireBody]
        · simpa [bound] using sizes
    · rename_i body conn batch drained
      obtain ⟨same,quiet,next⟩ := tryDrainStep drained
      split at h
      · split at h
        · cases h
        · rename_i r1 written
          obtain ⟨client,empty,sameBody,sameConn⟩ := writeBatchOk written
          obtain ⟨pieces,delimited,out,sizes⟩ := ih h
          rw [sameBody,sameConn] at delimited
          refine ⟨pieces,next _ _ delimited,?_,sizes⟩
          rw [out,client,empty]
          simp [same]
      · split at h
        · cases h
        · rename_i body1 conn1 filled
          obtain ⟨pieces,delimited,out,sizes⟩ := ih h
          refine ⟨pieces,next _ _ (fillStep quiet filled delimited),?_,sizes⟩
          rw [out]
          simp [same]
    · rename_i body conn batch drained
      obtain ⟨same,delimited,_⟩ := tryDrainStep drained
      obtain ⟨client,_,_,sameConn⟩ := writeBatchOk h
      refine ⟨[],?_,?_,by simp⟩
      · rw [sameConn]
        exact delimited
      · rw [client]
        cases rechunk <;> simp [same,wireBody,frameEnd]

def rechunked (b : Body) : Bool := hint b == .stream

theorem forwardProxyBodySpec {body conn client r} (h : forwardProxyBody body conn client = (true,r)) :
    ∃ pieces, Delimits body conn.unread pieces.flatten r.conn.unread ∧
      r.client.written = client.written ++ wireBody (rechunked body) pieces ∧
      ∀ d ∈ pieces, d.length ≤ proxyWriteBatchSize := by
  cases body with
  | none =>
    cases h
    exact ⟨[],⟨rfl,rfl⟩,by simp [wireBody,frameEnd,rechunked,hint],by simp⟩
  | fixed n => exact relayLoopSpec h
  | chunked n a t d => exact relayLoopSpec h
  | eof d => exact relayLoopSpec h

end ZeroServe.Proxy
