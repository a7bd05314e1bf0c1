import ZeroServe.ProxyH2
import ZeroServe.ReverseProxy

/-! `reverse_proxy_request_h2`: the same checks as for HTTP/1.1, the attempts and the body
sent from the stream. What is done with the backend's response is a parameter; the
interim response to `Expect` has no part in it. -/
namespace ZeroServe.Proxy
open ByteText ByteSource ChunkCoding H1

structure H2Response where
  status : Nat
  headers : HeaderMap
  data : Option Bytes
  deriving DecidableEq

def sendH2Response (rules : Rules) (headOnly : Bool) (res : FixedResponse) : H2Response :=
  let res := prepareFixedResponse rules res
  let sendBody := rawStatusAllowsBody res.status.code
  let headers := stripHopHeaders false (if sendBody then res.headers else stripNoBodyHeaders res.headers)
  ⟨res.status.code,headers,if headOnly || ! sendBody || res.body == [] then none else some res.body⟩

structure H2Outcome where
  reuseBackend : Bool
  continueRequest : Bool
  status : Option Nat
  deriving DecidableEq

structure H2Run where
  result : Except ProxyFailure H2Outcome
  stream : RecvStream
  response : Option H2Response
  backend : Option Backend
  deriving DecidableEq

variable (relay : Bool → Option Response → RecvStream → Backend → H2Run)

def proxyOverConnectionH2 (r : ProxyRequest) (watch : Bool) (uri : Uri) (head : RequestHead)
    (stream : RecvStream) (backend : Backend) : H2Run :=
  match sendRequestH2 r.forwarding uri r.limit watch head.method
      (r.overrides.headers.getD head.headers) stream backend with
  | (.ok (.completed pending),u) => relay true pending u.source u.backend
  | (.ok (.earlyResponse response),u) => relay false (some response) u.source u.backend
  | (.error .head,u) => ⟨.error .noResponse,u.source,none,some u.backend⟩
  | (.error (.body .tooLarge),u) =>
    ⟨.ok ⟨false,false,some 413⟩,u.source, some (sendH2Response r.rules r.headOnly payloadTooLarge),some u.backend⟩
  | (.error (.body .other),u) => ⟨.error .other,u.source,none,some u.backend⟩

/- The framing is chosen before the attempts; a replay sends no body, so it chooses the
same again. -/
def attemptsH2 (replayable : Bool) (d : Dials) (attempt : RecvStream → Backend → H2Run)
    (stream : RecvStream) : H2Run :=
  match d.pooled with
  | some backend =>
    let run := attempt stream backend
    if replayable && run.result == .error .noResponse then
      match d.fresh.headD none with
      | none => ⟨.error .other,run.stream,none,none⟩
      | some backend => attempt run.stream backend
    else run
  | none =>
    match d.fresh.headD none with
    | none => ⟨.error .other,stream,none,none⟩
    | some backend => attempt stream backend

def reverseProxyRequestH2 (parseUri : Bytes → Option Uri) (r : ProxyRequest) (d : Dials)
    (head : RequestHead) (stream : RecvStream) : H2Run :=
  match r.target with
  | none => ⟨.error .other,stream,none,none⟩
  | some target =>
  match overrideMethod r.overrides head.method with
  | none => ⟨.error .other,stream,none,none⟩
  | some method =>
  match overrideUri parseUri r.overrides head.uri with
  | none => ⟨.error .other,stream,none,none⟩
  | some requested =>
  let head := {head with method,uri := requested}
  match buildBackendUri parseUri target requested with
  | none => ⟨.error .other,stream,none,none⟩
  | some uri =>
    if sendsProxiedBody r.overrides method &&
        requestBodyContentLengthExceeds head.headers r.limit then
      let response := sendH2Response r.rules r.headOnly payloadTooLarge
      ⟨.ok ⟨false,false,some response.status⟩,stream,some response,none⟩
    else
      attemptsH2 ((method == .get || method == .head) && ! sendsProxiedBody r.overrides method) d
        (proxyOverConnectionH2 relay r (target.scheme != .https) uri head) stream

end ZeroServe.Proxy
