import ZeroServe.H1Message
import ZeroServe.ProxyHeaders

/-! The request side of a proxied exchange: the head and the body written to the backend
while its early responses are watched for. What the socket reports and which waits run
out are answers supplied with the backend. -/
namespace ZeroServe.Proxy
open ByteText ByteSource ChunkCoding H1

structure Backend where
  conn : Conn
  out : Sink
  /- Answers of `socket_has_pending_bytes`; no when there are none left. -/
  readable : List Bool
  /- Whether each bounded wait runs out; no when there are none left. -/
  timeouts : List Bool
  deriving DecidableEq

inductive RequestBodyError where
  | tooLarge
  | other
  deriving DecidableEq

inductive ForwardOutcome where
  | completed (pending : Option Response)
  | earlyResponse (response : Response)
  deriving DecidableEq

def earlyResponseAbortsUpload (response : Response) : Bool := 400 ≤ response.head.status.code

def maxEarlyInterimResponses : Nat := 16

def takeBufferedLoop : Nat → Nat → Conn → Except RequestBodyError (Option Response) × Nat × Conn
  | 0, interimSeen, c => (.error .other,interimSeen,c)
  | fuel+1, interimSeen, c =>
    match tryNextResponse c with
    | (.ok (some response),c) =>
      if isInterimResponseStatus response.head.status then
        if maxEarlyInterimResponses < interimSeen + 1 then (.error .other,interimSeen + 1,c)
        else takeBufferedLoop fuel (interimSeen + 1) c
      else (.ok (some response),interimSeen,c)
    | (.ok none,c) => (.ok none,interimSeen,c)
    | (.error _,c) => (.error .other,interimSeen,c)

def takeBufferedFinalResponse (interimSeen : Nat) (c : Conn) :
    Except RequestBodyError (Option Response) × Nat × Conn :=
  takeBufferedLoop (maxEarlyInterimResponses + 2) interimSeen c

def pollEarlyLoop : Nat → Nat → Backend →
    Except RequestBodyError (Option Response) × Nat × Backend
  | 0, interimSeen, be => (.error .other,interimSeen,be)
  | fuel+1, interimSeen, be =>
    match takeBufferedFinalResponse interimSeen be.conn with
    | (.ok none,interimSeen,conn) =>
      if be.readable.headD false then
        match readMore conn with
        | (.error _,conn) =>
          (.error .other,interimSeen,{be with conn,readable := be.readable.tail})
        | (.ok 0,conn) =>
          (.error .other,interimSeen,{be with conn,readable := be.readable.tail})
        | (.ok _,conn) =>
          pollEarlyLoop fuel interimSeen {be with conn,readable := be.readable.tail}
      else (.ok none,interimSeen,{be with conn,readable := be.readable.tail})
    | (r,interimSeen,conn) => (r,interimSeen,{be with conn})

def pollEarlyBackendResponse (interimSeen : Nat) (be : Backend) :
    Except RequestBodyError (Option Response) × Nat × Backend :=
  pollEarlyLoop (be.conn.io.bytes.length + 1) interimSeen be

def salvageLoop : Nat → Nat → Backend → Option Response × Backend
  | 0, _, be => (none,be)
  | left+1, interimSeen, be =>
    match takeBufferedFinalResponse interimSeen be.conn with
    | (.ok (some response),_,conn) =>
      (if earlyResponseAbortsUpload response then some response else none,{be with conn})
    | (.error _,_,conn) => (none,{be with conn})
    | (.ok none,interimSeen,conn) =>
      if be.timeouts.headD false then (none,{be with conn,timeouts := be.timeouts.tail}) else
      match readMore conn with
      | (.ok (_+1),conn) =>
        salvageLoop left interimSeen {be with conn,timeouts := be.timeouts.tail}
      | (_,conn) => (none,{be with conn,timeouts := be.timeouts.tail})

def salvageEarlyBackendResponse (interimSeen : Nat) (be : Backend) : Option Response × Backend :=
  salvageLoop 8 interimSeen be

def addLimitedRequestBodyBytes (bytesSeen chunkLen : Nat) (limit : Option Nat) : Option Nat :=
  match limit with
  | none => some bytesSeen
  | some limit => if limit < bytesSeen + chunkLen then none else some (bytesSeen + chunkLen)

def writeChunk (data : Bytes) (w : Sink) : Bool × Sink :=
  if data = [] then (true,w) else
  match writeAll (toRadix 16 data.length ++ crlf) w with
  | (false,w) => (false,w)
  | (true,w) =>
    match writeAll data w with
    | (false,w) => (false,w)
    | (true,w) => writeAll crlf w

def writeChunkEnd (w : Sink) : Bool × Sink := writeAll lastChunk w

def writePiece (chunked : Bool) (data : Bytes) (w : Sink) : Bool × Sink :=
  if chunked then writeChunk data w else writeAll data w

theorem writePieceSound {chunked data w w' ok} (sound : w.Sound) (h : writePiece chunked data w = (ok,w')) :
    ok = true ∧ w'.Sound := by
  unfold writePiece writeChunk at h
  split at h
  · split at h
    · cases h
      exact ⟨rfl,sound⟩
    · split at h
      · rename_i failed
        cases (writeAllSound sound failed).1
      · rename_i sized
        have sound := (writeAllSound sound sized).2
        split at h
        · rename_i failed
          cases (writeAllSound sound failed).1
        · rename_i filled
          exact writeAllSound (writeAllSound sound filled).2 h
  · exact writeAllSound sound h

structure Upload (σ : Type) where
  source : σ
  backend : Backend
  bytesSeen : Nat
  interimSeen : Nat
  pending : Option Response
  deriving DecidableEq

section
variable {σ : Type} (next : σ → Option (Except HttpError Bytes) × σ)

/- Look for an early response unless one is pending already; an error status is returned
to stop the upload, any other is kept for later. -/
def watchBackend (watch : Bool) (u : Upload σ) :
    Except RequestBodyError (Option Response) × Upload σ :=
  if watch && u.pending.isNone then
    match pollEarlyBackendResponse u.interimSeen u.backend with
    | (.error e,interimSeen,backend) => (.error e,{u with interimSeen,backend})
    | (.ok none,interimSeen,backend) => (.ok none,{u with interimSeen,backend})
    | (.ok (some r),interimSeen,backend) =>
      if earlyResponseAbortsUpload r then (.ok (some r),{u with interimSeen,backend})
      else (.ok none,{u with interimSeen,backend,pending := some r})
  else (.ok none,u)

def uploadWriteFailed (u : Upload σ) : Except RequestBodyError ForwardOutcome × Upload σ :=
  match salvageEarlyBackendResponse u.interimSeen u.backend with
  | (some r,backend) => (.ok (.earlyResponse r),{u with backend})
  | (none,backend) => (.error .other,{u with backend})

def uploadEnd (chunked : Bool) (u : Upload σ) :
    Except RequestBodyError ForwardOutcome × Upload σ :=
  if chunked then
    match writeChunkEnd u.backend.out with
    | (false,out) => uploadWriteFailed {u with backend := {u.backend with out}}
    | (true,out) => (.ok (.completed u.pending),{u with backend := {u.backend with out}})
  else (.ok (.completed u.pending),u)

def forwardLoop (limit : Option Nat) (watch chunked : Bool) :
    Nat → Upload σ → Except RequestBodyError ForwardOutcome × Upload σ
  | 0, u => (.error .other,u)
  | fuel+1, u =>
    match next u.source with
    | (none,source) => uploadEnd chunked {u with source}
    | (some (.error _),source) => (.error .other,{u with source})
    | (some (.ok data),source) =>
      match addLimitedRequestBodyBytes u.bytesSeen data.length limit with
      | none => (.error .tooLarge,{u with source})
      | some bytesSeen =>
        match watchBackend watch {u with source,bytesSeen} with
        | (.error e,u) => (.error e,u)
        | (.ok (some r),u) => (.ok (.earlyResponse r),u)
        | (.ok none,u) =>
          match writePiece chunked data u.backend.out with
          | (false,out) => uploadWriteFailed {u with backend := {u.backend with out}}
          | (true,out) =>
            forwardLoop limit watch chunked fuel {u with backend := {u.backend with out}}

end

def startUpload {σ : Type} (source : σ) (backend : Backend) : Upload σ := ⟨source,backend,0,0,none⟩

structure Inbound where
  body : Body
  reader : Conn
  deriving DecidableEq

def Inbound.next (i : Inbound) : Option (Except HttpError Bytes) × Inbound :=
  let (r,body,reader) := nextData i.body i.reader
  (r,⟨body,reader⟩)

def forwardRequestBody (limit : Option Nat) (watch : Bool) (inbound : Inbound)
    (backend : Backend) : Except RequestBodyError ForwardOutcome × Upload Inbound :=
  match inbound.body with
  | .none => (.ok (.completed none),startUpload inbound backend)
  | .eof _ => (.error .other,startUpload inbound backend)
  | _ => forwardLoop Inbound.next limit watch inbound.body.isChunked
      (inbound.reader.unread.length + 1) (startUpload inbound backend)

inductive SendError where
  | head
  | body (e : RequestBodyError)
  deriving DecidableEq

/- The first half of `proxy_over_connection` and of its HTTP/2 form: the head, then the
body unless it is not to be sent. -/
def sendMessage {σ : Type} (sendRequestBody : Bool) (head : RequestHead)
    (forward : σ → Backend → Except RequestBodyError ForwardOutcome × Upload σ)
    (source : σ) (backend : Backend) : Except SendError ForwardOutcome × Upload σ :=
  match writeAll (encodeRequestHead head) backend.out with
  | (false,out) => (.error .head,startUpload source {backend with out})
  | (true,out) =>
    if sendRequestBody then
      match forward source {backend with out} with
      | (.ok outcome,u) => (.ok outcome,u)
      | (.error e,u) => (.error (.body e),u)
    else (.ok (.completed none),startUpload source {backend with out})

def sendRequest (sendRequestBody : Bool) (limit : Option Nat) (watch : Bool) (head : RequestHead)
    (inbound : Inbound) (backend : Backend) : Except SendError ForwardOutcome × Upload Inbound :=
  sendMessage sendRequestBody head (forwardRequestBody limit watch) inbound backend

def sendsBody (method : Method) : Bool := method != .get && method != .head

def forwardedHead (f : Forwarding) (uri : Uri) (sendRequestBody : Bool) (body : Body)
    (websocket : Bool) (method : Method) (headers : HeaderMap) : RequestHead :=
  ⟨method,uri,.http11,
    prepareReverseProxyRequestHeadersH1 f (if sendRequestBody then body else .none) websocket headers⟩

theorem pollEarlyLoopOut (fuel interimSeen : Nat) (be : Backend) :
    (pollEarlyLoop fuel interimSeen be).2.2.out = be.out := by
  induction fuel generalizing interimSeen be with
  | zero => rfl
  | succ fuel ih =>
    unfold pollEarlyLoop
    split
    · split
      · split
        · rfl
        · rfl
        · rw [ih]
      · rfl
    · rfl

section
variable {σ : Type} {next : σ → Option (Except HttpError Bytes) × σ}

inductive Pulls (next : σ → Option (Except HttpError Bytes) × σ) : σ → List Bytes → σ → Prop where
  | done {s s'} (ended : next s = (none,s')) : Pulls next s [] s'
  | piece {s data s1 later s'} (step : next s = (some (.ok data),s1))
      (tail : Pulls next s1 later s') : Pulls next s (data::later) s'

variable {u u' : Upload σ} {pending : Option Response}

theorem watchBackendKeeps {watch : Bool}
    {r : Except RequestBodyError (Option Response)} (h : watchBackend watch u = (r,u')) :
    u'.source = u.source ∧ u'.backend.out = u.backend.out := by
  have poll := pollEarlyLoopOut (u.backend.conn.io.bytes.length + 1) u.interimSeen u.backend
  unfold watchBackend at h
  split at h
  · unfold pollEarlyBackendResponse at h
    split at h
    · rename_i polled
      cases h
      rw [polled] at poll
      exact ⟨rfl,poll⟩
    · rename_i polled
      cases h
      rw [polled] at poll
      exact ⟨rfl,poll⟩
    · rename_i polled
      rw [polled] at poll
      split at h
      · cases h; exact ⟨rfl,poll⟩
      · cases h; exact ⟨rfl,poll⟩
  · cases h
    exact ⟨rfl,rfl⟩

theorem writePieceOk {chunked data w w'} (h : writePiece chunked data w = (true,w')) :
    w'.written = w.written ++ framePiece chunked data := by
  cases chunked with
  | false => exact writeAllOk h
  | true =>
    change writeChunk data w = (true,w') at h
    unfold writeChunk at h
    split at h
    · rename_i empty
      cases h
      simp [framePiece,chunkOf,empty]
    · rename_i nonempty
      split at h
      · cases h
      · rename_i w1 size
        split at h
        · cases h
        · rename_i w2 body
          rw [writeAllOk h,writeAllOk body,writeAllOk size]
          simp [framePiece,chunkOf,nonempty]

theorem uploadWriteFailedIncomplete :
    uploadWriteFailed u ≠ (.ok (.completed pending),u') := by
  intro h
  unfold uploadWriteFailed at h
  split at h <;> cases h

theorem uploadEndCompleted {chunked : Bool}
    (h : uploadEnd chunked u = (.ok (.completed pending),u')) : u'.source = u.source ∧
      u'.backend.out.written = u.backend.out.written ++ frameEnd chunked := by
  cases chunked with
  | true =>
    unfold uploadEnd at h
    rw [if_pos rfl] at h
    split at h
    · exact absurd h uploadWriteFailedIncomplete
    · rename_i out ended
      cases h
      exact ⟨rfl,writeAllOk ended⟩
  | false =>
    cases h
    exact ⟨rfl,by simp [frameEnd]⟩

theorem forwardLoopCompleted {limit : Option Nat} {watch chunked : Bool} {fuel}
    (h : forwardLoop next limit watch chunked fuel u = (.ok (.completed pending),u')) :
    ∃ pieces, Pulls next u.source pieces u'.source ∧
      u'.backend.out.written = u.backend.out.written ++ wireBody chunked pieces := by
  induction fuel generalizing u with
  | zero => cases h
  | succ fuel ih =>
    unfold forwardLoop at h
    split at h
    · rename_i source last
      obtain ⟨same,written⟩ := uploadEndCompleted h
      exact ⟨[],.done (by rw [last,same]),written⟩
    · cases h
    · rename_i data source step
      split at h
      · cases h
      · split at h
        · cases h
        · cases h
        · rename_i watched
          obtain ⟨same,sameOut⟩ := watchBackendKeeps watched
          split at h
          · exact absurd h uploadWriteFailedIncomplete
          · rename_i out wrote
            obtain ⟨pieces,run,written⟩ := ih h
            refine ⟨data::pieces,.piece step ?_,?_⟩
            · rw [same] at run
              exact run
            · rw [written]
              rw [writePieceOk wrote,sameOut]
              simp [wireBody]

theorem sendMessageCompleted {head} {forward : σ → Backend → Except RequestBodyError ForwardOutcome × Upload σ}
    {source backend u pending} (h : sendMessage true head forward source backend = (.ok (.completed pending),u)) :
    ∃ out, out.written = backend.out.written ++ encodeRequestHead head ∧
      forward source {backend with out} = (.ok (.completed pending),u) := by
  unfold sendMessage at h
  split at h
  · cases h
  · rename_i out wrote
    rw [if_pos rfl] at h
    split at h
    · rename_i outcome u1 forwarded
      cases h
      exact ⟨out,writeAllOk wrote,forwarded⟩
    · cases h

theorem sendMessageBodiless {head} {forward : σ → Backend → Except RequestBodyError ForwardOutcome × Upload σ}
    {source backend u outcome} (h : sendMessage false head forward source backend = (.ok outcome,u)) :
    u.backend.out.written = backend.out.written ++ encodeRequestHead head ∧ u.source = source := by
  unfold sendMessage at h
  split at h
  · cases h
  · rename_i out wrote
    cases h
    exact ⟨writeAllOk wrote,rfl⟩

end

theorem inboundNext {i i' : Inbound} {r : Option (Except HttpError Bytes)}
    (h : i.next = (r,i')) : nextData i.body i.reader = (r,i'.body,i'.reader) := by
  unfold Inbound.next at h
  generalize nextData i.body i.reader = out at h
  cases h
  rfl

theorem inboundPulls {i i' : Inbound} {pieces : List Bytes} (run : Pulls Inbound.next i pieces i') :
    ∃ b1 c1, Reads i.body i.reader pieces b1 c1 ∧ nextData b1 c1 = (none,i'.body,i'.reader) := by
  induction run with
  | done ended => exact ⟨_,_,.nil _ _,inboundNext ended⟩
  | piece step tail ih =>
    obtain ⟨b1,c1,reads,last⟩ := ih
    exact ⟨b1,c1,.cons (inboundNext step) reads,last⟩

theorem forwardRequestBodyCompleted {limit watch inbound backend u pending}
    (h : forwardRequestBody limit watch inbound backend = (.ok (.completed pending),u)) :
    ∃ pieces, Pulls Inbound.next inbound pieces u.source ∧ u.backend.out.written =
        backend.out.written ++ wireBody inbound.body.isChunked pieces := by
  obtain ⟨body,reader⟩ := inbound
  cases body with
  | none =>
    cases h
    exact ⟨[],.done rfl,by simp [wireBody,frameEnd,Body.isChunked,startUpload]⟩
  | eof done => cases h
  | fixed n => exact forwardLoopCompleted h
  | chunked n a t d => exact forwardLoopCompleted h

theorem sendRequestCompleted {limit watch head inbound backend u pending}
    (h : sendRequest true limit watch head inbound backend = (.ok (.completed pending),u)) :
    ∃ pieces b1 c1, Reads inbound.body inbound.reader pieces b1 c1 ∧
      nextData b1 c1 = (none,u.source.body,u.source.reader) ∧ u.backend.out.written = backend.out.written ++
        (encodeRequestHead head ++ wireBody inbound.body.isChunked pieces) := by
  obtain ⟨out,wrote,forwarded⟩ := sendMessageCompleted h
  obtain ⟨pieces,run,written⟩ := forwardRequestBodyCompleted forwarded
  obtain ⟨b1,c1,reads,last⟩ := inboundPulls run
  refine ⟨pieces,b1,c1,reads,last,?_⟩
  rw [written]
  rw [wrote,List.append_assoc]

end ZeroServe.Proxy
