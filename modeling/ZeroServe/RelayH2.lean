import ZeroServe.ReverseProxyH2

/-! The response side of `proxy_over_connection_h2`: the header passes, the head handed to the
`h2` crate and the body as DATA frames, compressed or as it came. How many of its sends a stream
takes before it is reset is an input. -/
namespace ZeroServe.Proxy
open ByteText ByteSource ChunkCoding H1

structure SendStream where
  response : Option H2Response
  /- The sends still taken; any number when it is not given. -/
  credit : Option Nat
  deriving DecidableEq

def SendStream.spend (w : SendStream) : Option SendStream :=
  match w.credit with
  | none => some w
  | some 0 => none
  | some (n+1) => some {w with credit := some n}

def SendStream.sendResponse (w : SendStream) (status : Nat) (headers : HeaderMap) (endStream : Bool) :
    Bool × SendStream :=
  match w.spend with
  | none => (false,w)
  | some w => (true,{w with response := some ⟨status,headers,if endStream then none else some []⟩})

def SendStream.sendData (w : SendStream) (data : Bytes) (endStream : Bool) : Bool × SendStream :=
  if data = [] && ! endStream then (true,w) else
  match w.spend with
  | none => (false,w)
  | some w => (true,{w with response := w.response.map fun r => {r with data := r.data.map (· ++ data)}})

def forwardH2Loop : Nat → Option (Except HttpError Bytes) → Bool → Body → Conn → SendStream →
    Bool × Conn × SendStream
  | 0, _, _, _, c, w => (false,c,w)
  | _+1, none, sentAny, _, c, w =>
    if sentAny then (true,c,w) else
    let (ok,w) := w.sendData [] true
    (ok,c,w)
  | _+1, some (.error _), _, _, c, w => (false,c,w)
  | fuel+1, some (.ok chunk), _, b, c, w =>
    let (next,b,c) := nextData b c
    match w.sendData chunk next.isNone with
    | (false,w) => (false,c,w)
    | (true,w) => forwardH2Loop fuel next true b c w

def forwardProxyBodyH2 (b : Body) (c : Conn) (w : SendStream) : Bool × Conn × SendStream :=
  let (next,b,c') := nextData b c
  forwardH2Loop (c.unread.length + 2) next false b c' w

def encodeH2Loop (enc : Encoder) : Nat → List Bytes → Body → Conn → SendStream → Bool × Conn × SendStream
  | 0, _, _, c, w => (false,c,w)
  | fuel+1, fed, b, c, w =>
    match nextData b c with
    | (some (.error _),_,c) => (false,c,w)
    | (some (.ok data),b,c) =>
      match enc.push fed data with
      | none => (false,c,w)
      | some out =>
        match w.sendData out false with
        | (false,w) => (false,c,w)
        | (true,w) => encodeH2Loop enc fuel (fed ++ [data]) b c w
    | (none,_,c) =>
      match enc.finish fed with
      | none => (false,c,w)
      | some tail =>
        let (ok,w) := w.sendData tail true
        (ok,c,w)

def forwardProxyBodyH2Encoded (enc : Encoder) (b : Body) (c : Conn) (w : SendStream) : Bool × Conn × SendStream :=
  if ! enc.ready then (false,c,w) else encodeH2Loop enc (c.unread.length + 1) [] b c w

def relayBodyH2 (x : Exchange) (head : ReplyHead) (chosen : Option (Encoder × Nat)) (body : Body) (conn : Conn)
    (w : SendStream) : Bool × Conn × SendStream :=
  if ! head.sendBody then
    if x.headOnly then (true,conn,w) else
    let (ok,conn) := drainProxyPayload body conn
    (ok,conn,w)
  else
    match chosen with
    | some (enc,_) => forwardProxyBodyH2Encoded enc body conn w
    | none => forwardProxyBodyH2 body conn w

def responseHeadersH2 (x : Exchange) (resp : Response) : HeaderMap :=
  (applyProxyResponseHeaders (hint resp.body) (shouldSendProxyBodyRaw resp.head.status.code (hint resp.body) x.headOnly)
    (stripHopHeaders false resp.head.headers)).remove .transferEncoding

def relayParsedH2 (x : Exchange) (fullySent : Bool) (resp : Response) (stream : RecvStream) (backend : Backend)
    (w : SendStream) : H2Run :=
  let canReuse := fullySent && shouldReuseProxyConnection resp.head.version resp.head.headers &&
    ! resp.body.isEof
  let length := if hint resp.body = .fixed then
      (stripHopHeaders false resp.head.headers).get .contentLength else none
  let o := prepareProxyResponse x.rules resp.head.status.code (responseHeadersH2 x resp)
  if o.continueRequest then
    match (if x.headOnly then (true,backend.conn) else drainProxyPayload resp.body backend.conn) with
    | (false,conn) => ⟨.error .other,stream,w.response,some {backend with conn}⟩
    | (true,conn) => ⟨.ok ⟨canReuse,true,some o.status⟩,stream,w.response,some {backend with conn}⟩
  else
    let head := replyHead x (hint resp.body) length o.status o.headers
    let chosen := chosenEncoder x head
    let headers := match chosen with
      | some (enc,_) => enc.applyEncodingHeaders head.headers
      | none => head.headers
    match w.sendResponse head.status (headers.remove .transferEncoding) (! head.sendBody) with
    | (false,w) => ⟨.error .other,stream,w.response,some backend⟩
    | (true,w) =>
      match relayBodyH2 x head chosen resp.body backend.conn w with
      | (false,conn,w) => ⟨.error .other,stream,w.response,some {backend with conn}⟩
      | (true,conn,w) => ⟨.ok ⟨canReuse,false,some head.status⟩,stream,w.response,some {backend with conn}⟩

end ZeroServe.Proxy
