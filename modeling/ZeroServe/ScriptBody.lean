import ZeroServe.RequestFraming
import ZeroServe.ReverseProxy

/-! A request body that a script may read before the request is proxied: both share one body cursor, and what is left
of a length-delimited body is forwarded under the length of the whole. -/
namespace ZeroServe.Proxy
open ByteText ByteSource ChunkCoding H1 WireMessage

inductive BodyReadError where
  | tooLarge
  | readError
  deriving DecidableEq

def bufferLoop (maxSize : Nat) : Nat → Bytes → Inbound → Except BodyReadError Bytes × Inbound
  | 0, _, i => (.error .readError,i)
  | fuel+1, buf, i =>
    match i.next with
    | (some (.ok chunk),i) =>
      if maxSize < buf.length + chunk.length then (.error .tooLarge,i)
      else bufferLoop maxSize fuel (buf ++ chunk) i
    | (some (.error _),i) => (.error .readError,i)
    | (none,i) => (.ok buf,i)

inductive BodySourceState where
  | pending
  | ready (bytes : Bytes)
  | tooLarge
  | empty
  deriving DecidableEq

/- The reader and the body are put back after every read, whatever it returned. -/
structure BodySource where
  state : BodySourceState
  maxSize : Nat
  held : Inbound
  deriving DecidableEq

def createH1BodySource (inbound : Inbound) (maxBufferedBodySize : Nat) : BodySource :=
  ⟨.pending,maxBufferedBodySize,inbound⟩

def BodySource.setMaxSize (s : BodySource) (maxSize : Nat) : BodySource :=
  if s.maxSize = 0 || maxSize < s.maxSize then {s with maxSize} else s

def BodySource.read (s : BodySource) : Option Bytes × BodySource :=
  match s.state with
  | .ready bytes => (some bytes,s)
  | .tooLarge => (none,s)
  | .empty => (none,s)
  | .pending =>
    match bufferLoop s.maxSize (s.held.reader.unread.length + 1) [] s.held with
    | (.ok bytes,held) => (some bytes,{s with state := .ready bytes,held})
    | (.error .tooLarge,held) => (none,{s with state := .tooLarge,held})
    | (.error .readError,held) => (none,{s with state := .empty,held})

inductive BodyCall where
  | setMaxSize (n : Nat)
  | read
  deriving DecidableEq

def BodySource.call (s : BodySource) : BodyCall → BodySource
  | .setMaxSize n => s.setMaxSize n
  | .read => s.read.2

def BodySource.calls (s : BodySource) (calls : List BodyCall) : BodySource :=
  calls.foldl BodySource.call s

/- What the length lines that survive the strip must say about the rest of the body. -/
def FramesRest (headers : HeaderMap) : Body → Prop
  | .fixed left => (unlistedValues headers .contentLength = [] → left = 0) ∧
      ∀ v ∈ unlistedValues headers .contentLength, lengthValue v = some left
  | _ => True

theorem forwardedRest (f : Forwarding) (uri : Uri) (websocket : Bool) (method : Method) (headers : HeaderMap)
    {body b' b2 c c' c2 pieces} (run : Reads body c pieces b' c') (last : nextData b' c' = (none,b2,c2))
    (bounded : body.isEof = false) : (∃ payload, Complete decimal64 chunkSize
      (encodeRequestHead (forwardedHead f uri true body websocket method headers) ++
        wireBody body.isChunked pieces) payload) ↔ FramesRest headers body := by
  have codings := forwardedCodings f uri body websocket method headers
  have lengths := forwardedLengths f uri body websocket method headers
  cases body with
  | none =>
    have nothing := (readsEnd run last).1
    rw [show Body.none.isChunked = false from rfl,wireBodyPlain,nothing,
      requestCompleteNone [] codings (by simpa using lengths)]
    exact iff_of_true rfl trivial
  | fixed left =>
    have size := fixedReads run last
    have kept : (forwardedHead f uri true (.fixed left) websocket method headers).headers.getAll
        .contentLength = unlistedValues headers .contentLength := by
      rw [lengths]
      rfl
    rw [show (Body.fixed left).isChunked = false from rfl,wireBodyPlain]
    by_cases none : unlistedValues headers .contentLength = []
    · rw [requestCompleteNone _ codings (kept.trans none),← List.length_eq_zero_iff,size]
      simp [FramesRest,none]
    · rw [requestCompleteLength _ codings (by rw [kept]; exact none),kept,size]
      simp [FramesRest,none]
  | chunked n a t d =>
    rw [requestCompleteChunked _ codings (by simpa [Body.isChunked] using lengths)]
    exact iff_of_true ⟨_,wireBodyChunked run⟩ trivial
  | eof done => cases bounded

theorem sendRequestBounded {limit watch head inbound backend u pending}
    (h : sendRequest true limit watch head inbound backend = (.ok (.completed pending),u)) :
    inbound.body.isEof = false := by
  obtain ⟨out,_,forwarded⟩ := sendMessageCompleted h
  obtain ⟨body,reader⟩ := inbound
  cases body with
  | eof done => cases forwarded
  | _ => rfl

theorem sendsOtherMethods {o method m} (chosen : overrideMethod o method = some m) (get : m ≠ .get) (head : m ≠ .head) :
    sendsProxiedBody o m = true := by
  have text : ∀ t, o.method = some t → m.text = t := by
    intro t overridden
    rw [overrideMethod,overridden] at chosen
    dsimp only at chosen
    unfold Method.fromBytes at chosen
    split at chosen <;> try contradiction
    cases Option.some.inj chosen
    rfl
  have apart : ∀ (n : Method), m ≠ n → o.method ≠ some n.text := by
    intro n other same
    apply other
    have eq := text _ same
    cases m; cases n
    simpa using eq
  have notGet := apart .get get
  have notHead := apart .head head
  simp only [sendsProxiedBody,sendsBody,Bool.and_eq_true,bne_iff_ne,ne_eq,get,head,
    not_false_eq_true,and_self,true_and,Bool.not_eq_true',Bool.or_eq_false_iff]
  exact ⟨beq_eq_false_iff_ne.mpr notGet,beq_eq_false_iff_ne.mpr notHead⟩

def bodyAfter (maxBufferedBodySize : Nat) (inbound : Inbound) (calls : List BodyCall) : Inbound :=
  ((createH1BodySource inbound maxBufferedBodySize).calls calls).held

theorem scriptReadFramingExact {parseUri : Bytes → Option Uri} {r : ProxyRequest} {d : Dials}
    {head : RequestHead} {m : Method} {maxSize : Nat} {inbound : Inbound} {calls : List BodyCall}
    {client : Sink} {out : ProxyOutcome}
    (chosen : overrideMethod r.overrides head.method = some m) (get : m ≠ .get) (other : m ≠ .head)
    (ok : (reverseProxyRequest parseUri r d head (bodyAfter maxSize inbound calls) client).result = .ok out)
    (reused : out.reuseBackend = true) :
    ∃ before after wire, firstBackend (! isWebsocketUpgradeRequest head.headers) d = some before ∧
      (reverseProxyRequest parseUri r d head (bodyAfter maxSize inbound calls) client).backend = some after ∧
      after.out.written = before.out.written ++ wire ∧ ((∃ payload, Complete decimal64 chunkSize wire payload) ↔
        FramesRest (r.overrides.headers.getD head.headers) (bodyAfter maxSize inbound calls).body) := by
  have body := sendsOtherMethods chosen get other
  obtain ⟨target,requested,uri,before,s,first,made,same⟩ :=
    reverseProxyReuse chosen body ok reused
  obtain ⟨pending,u,sent,relayed⟩ := proxyOverConnectionReuse made reused
  have quiet := relayResponseOut (generalExchange r target {head with method := m,uri := requested})
    true pending ⟨u.source,u.backend,client⟩
  rw [relayed] at quiet
  have sends : (generalExchange r target {head with method := m,uri := requested}).sendRequestBody =
      true := body
  rw [sends] at sent
  obtain ⟨pieces,b1,c1,run,last,written⟩ := sendRequestCompleted sent
  refine ⟨before,s.backend,_,first,by rw [same]; rfl,by rw [quiet]; exact written,?_⟩
  have rebuilt : generalHead r uri {head with method := m,uri := requested}
      (bodyAfter maxSize inbound calls).body =
      forwardedHead r.forwarding uri true (bodyAfter maxSize inbound calls).body
        (isWebsocketUpgradeRequest head.headers) m (r.overrides.headers.getD head.headers) := by
    unfold generalHead
    rw [show sendsProxiedBody r.overrides m = true from body]
  rw [rebuilt]
  exact forwardedRest r.forwarding uri _ _ _ run last (sendRequestBounded sent)

def plainProxy : ProxyRequest :=
  ⟨some backendRoot,caddyForwarding,⟨none,none,none⟩,false,none,noRules,none,true⟩

def answering (text : String) : Dials := ⟨none,[some ⟨clientOf text,⟨[],[],0⟩,[],[]⟩]⟩

def answerOk : Dials := answering "HTTP/1.1 200 OK\r\nContent-Length: 2\r\n\r\nok"

def postOf (fields : List (HeaderName × HeaderValue)) : RequestHead :=
  ⟨.ofAscii "POST",rootUri,.http11,⟨(.host,.ofAscii "a")::fields⟩⟩

def readChunked : ProxyRun :=
  reverseProxyRequest onlyRoot plainProxy answerOk (postOf [(.transferEncoding,.ofAscii "chunked")])
    (bodyAfter 1024 ⟨newChunked,bufferOf "5\r\nhello\r\n0\r\n\r\n"⟩ [.read]) ⟨[],[],0⟩

theorem chunkedReadFramed : ∃ before after wire, firstBackend (! isWebsocketUpgradeRequest
      (postOf [(.transferEncoding,.ofAscii "chunked")]).headers) answerOk = some before ∧
    readChunked.backend = some after ∧ after.out.written = before.out.written ++ wire ∧
    ∃ payload, Complete decimal64 chunkSize wire payload := by
  have ok : readChunked.result = .ok ⟨true,⟨true,200⟩,false,none⟩ := by decide +kernel
  obtain ⟨before,after,wire,first,used,written,exact⟩ :=
    scriptReadFramingExact (m := .ofAscii "POST") rfl (by decide +kernel) (by decide +kernel) ok rfl
  exact ⟨before,after,wire,first,used,written,exact.mpr (by
    rw [show (bodyAfter 1024 ⟨newChunked,bufferOf "5\r\nhello\r\n0\r\n\r\n"⟩ [.read]).body =
      .chunked 0 false true true by decide +kernel]
    trivial)⟩

def readFixed : ProxyRun :=
  reverseProxyRequest onlyRoot plainProxy answerOk (postOf [(.contentLength,.ofAscii "5")])
    (bodyAfter 1024 ⟨.fixed 5,bufferOf "hello"⟩ [.read]) ⟨[],[],0⟩

theorem readBodyLengthKept : readFixed.result = .ok ⟨true,⟨true,200⟩,false,none⟩ ∧
    readFixed.backend.map (·.out.written) = some (ascii "POST / HTTP/1.1\r\nhost: a\r\ncontent-length: 5\r\n\r\n") ∧
    ¬ ∃ payload, Complete decimal64 chunkSize
      (ascii "POST / HTTP/1.1\r\nhost: a\r\ncontent-length: 5\r\n\r\n") payload := by
  refine ⟨by decide +kernel,by decide +kernel,?_⟩
  have read : readHead (ascii "POST / HTTP/1.1\r\nhost: a\r\ncontent-length: 5\r\n\r\n") =
      some (⟨ascii "POST / HTTP/1.1",[(ascii "host",ascii "a"),(ascii "content-length",ascii "5")]⟩,
        []) := by decide +kernel
  rw [completeLength read (by decide +kernel) (by decide +kernel)]
  intro all
  have five := all (ascii "5") (by decide +kernel)
  exact absurd five (by decide +kernel)

end ZeroServe.Proxy
