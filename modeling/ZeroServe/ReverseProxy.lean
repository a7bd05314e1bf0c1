import ZeroServe.ProxyExchange
import ZeroServe.SimpleRequest

/-! `reverse_proxy_request`: the checks before a backend is chosen, the short form for
plain GET requests, the attempt on a pooled or a fresh connection and the one replay.
What the pool and the dialer hand out is an input. -/
namespace ZeroServe.Proxy
open ByteText ByteSource H1

structure ProxyRequest where
  target : Option BackendTarget
  forwarding : Forwarding
  overrides : Overrides
  headOnly : Bool
  limit : Option Nat
  rules : Rules
  linger : Option Nat
  tunnelOk : Bool

/- The pooled connection, if any, and the results of dialing in turn. -/
structure Dials where
  pooled : Option Backend
  fresh : List (Option Backend)
  deriving DecidableEq

/- What is left after a proxied request. The backend is the connection last used; it goes
back to the pool exactly when the outcome says so. -/
structure ProxyRun where
  result : Except ProxyFailure ProxyOutcome
  inbound : Inbound
  client : Sink
  backend : Option Backend
  deriving DecidableEq

def ExchangeState.run (r : ExchangeResult) : ProxyRun :=
  ⟨r.1,r.2.inbound,r.2.client,some r.2.backend⟩

def failed (inbound : Inbound) (client : Sink) : ProxyRun := ⟨.error .other,inbound,client,none⟩
def failedDrained (inbound : Inbound) (client : Sink) : ProxyRun :=
  ⟨.error .other,drainPayload inbound,client,none⟩

def attempts (usePool replayable : Bool) (d : Dials) (attempt : ExchangeState → ExchangeResult)
    (inbound : Inbound) (client : Sink) : ProxyRun :=
  match (if usePool then d.pooled else none) with
  | some backend =>
    match attempt ⟨inbound,backend,client⟩ with
    | (.error .noResponse,s) =>
      if replayable then
        match d.fresh.headD none with
        | none => failed s.inbound s.client
        | some backend => ExchangeState.run (attempt {s with backend})
      else ExchangeState.run (.error .noResponse,s)
    | r => ExchangeState.run r
  | none =>
    match d.fresh.headD none with
    | none => failedDrained inbound client
    | some backend => ExchangeState.run (attempt ⟨inbound,backend,client⟩)

def requestBodyContentLengthExceeds (headers : HeaderMap) (limit : Option Nat) : Bool :=
  match limit,plainLength headers with
  | some limit,some len => limit < len
  | _,_ => false

/- Every failure of the short form is followed by a drain, which has nothing to read as
the request has no body. -/
def reverseProxySimpleRequest (r : ProxyRequest) (target : BackendTarget) (d : Dials)
    (head : RequestHead) (inbound : Inbound) (client : Sink) : ProxyRun :=
  attempts true true d
    (proxySimpleOverConnection (encodeSimpleProxyRequestHead r.forwarding target head))
    inbound client

def overrideMethod (o : Overrides) (method : Method) : Option Method :=
  match o.method with
  | some text => Method.fromBytes text
  | none => some method

def overrideUri (parseUri : Bytes → Option Uri) (o : Overrides) (uri : Uri) : Option Uri :=
  match o.uri with
  | some text => parseUri text
  | none => some uri

def sendsProxiedBody (o : Overrides) (method : Method) : Bool :=
  sendsBody method && ! (o.method == some (ascii "GET") || o.method == some (ascii "HEAD"))

def generalExchange (r : ProxyRequest) (target : BackendTarget) (head : RequestHead) : Exchange :=
  ⟨r.headOnly,isWebsocketUpgradeRequest head.headers,sendsProxiedBody r.overrides head.method,
    r.limit,target.scheme != .https,r.rules,r.linger,r.tunnelOk⟩

def generalHead (r : ProxyRequest) (uri : Uri) (head : RequestHead) (body : Body) : RequestHead :=
  forwardedHead r.forwarding uri (sendsProxiedBody r.overrides head.method) body
    (isWebsocketUpgradeRequest head.headers) head.method (r.overrides.headers.getD head.headers)

def replayable (head : RequestHead) (body : Body) : Bool :=
  (head.method == .get || head.method == .head) && hint body == .none

def reverseProxyGeneral (r : ProxyRequest) (target : BackendTarget) (uri : Uri) (d : Dials)
    (head : RequestHead) (inbound : Inbound) (client : Sink) : ProxyRun :=
  attempts (! isWebsocketUpgradeRequest head.headers) (replayable head inbound.body) d
    (proxyOverConnection (generalExchange r target head) (generalHead r uri head inbound.body))
    inbound client

def rejectTooLarge (r : ProxyRequest) (inbound : Inbound) (client : Sink) : ProxyRun :=
  let (drained,inbound) := lingerDrain r.linger inbound
  let (send,client) := sendFixed r.rules payloadTooLarge client
  ⟨.ok ⟨false,⟨send.keepClient && drained,send.status⟩,false,none⟩,inbound,client,none⟩

def reverseProxyRequest (parseUri : Bytes → Option Uri) (r : ProxyRequest) (d : Dials)
    (head : RequestHead) (inbound : Inbound) (client : Sink) : ProxyRun :=
  match r.target with
  | none => failedDrained inbound client
  | some target =>
  match overrideMethod r.overrides head.method with
  | none => failed inbound client
  | some method =>
  match overrideUri parseUri r.overrides head.uri with
  | none => failed inbound client
  | some requested =>
  let head := {head with method,uri := requested}
  match buildBackendUri parseUri target requested with
  | none => failedDrained inbound client
  | some uri =>
    if sendsProxiedBody r.overrides method &&
        requestBodyContentLengthExceeds head.headers r.limit then
      rejectTooLarge r inbound client
    else if canUseSimpleProxyFastPath head inbound.body
        (isWebsocketUpgradeRequest head.headers) r.rules r.overrides then
      reverseProxySimpleRequest r target d head inbound client
    else reverseProxyGeneral r target uri d head inbound client

def firstBackend (usePool : Bool) (d : Dials) : Option Backend :=
  match (if usePool then d.pooled else none) with
  | some backend => some backend
  | none => d.fresh.headD none

theorem runOk {r out} (h : (ExchangeState.run r).result = .ok out) : r = (.ok out,r.2) := Prod.ext h rfl

theorem attemptsOk {usePool replayable d} {attempt : ExchangeState → ExchangeResult} {inbound client out}
    (h : (attempts usePool replayable d attempt inbound client).result = .ok out) : ∃ s s', attempt s = (.ok out,s') ∧
      attempts usePool replayable d attempt inbound client = ExchangeState.run (.ok out,s') ∧
      ((firstBackend usePool d = some s.backend ∧ s.inbound = inbound ∧ s.client = client) ∨
        (replayable = true ∧ d.fresh.headD none = some s.backend)) := by
  unfold attempts at h ⊢
  unfold firstBackend
  split
  · rename_i backend chosen
    rw [chosen] at h
    dsimp only at h
    split
    · rename_i s failedFirst
      rw [failedFirst] at h
      dsimp only at h
      split at h
      · rename_i again
        rw [if_pos again]
        split at h
        · cases h
        · rename_i fresh dialed
          have made := runOk h
          exact ⟨{s with backend := fresh},_,made,by rw [← made],Or.inr ⟨again,dialed⟩⟩
      · cases h
    · rename_i other
      split at h
      · rename_i s failedFirst
        exact absurd failedFirst (other s)
      · have made := runOk h
        exact ⟨⟨inbound,backend,client⟩,_,made,by rw [← made],Or.inl ⟨rfl,rfl,rfl⟩⟩
  · rename_i chosen
    rw [chosen] at h
    dsimp only at h
    split at h
    · cases h
    · rename_i backend dialed
      have made := runOk h
      exact ⟨⟨inbound,backend,client⟩,_,made,by rw [← made],Or.inl ⟨dialed,rfl,rfl⟩⟩

theorem reverseProxyReuse {parseUri : Bytes → Option Uri} {r d head inbound client m out}
    (method : overrideMethod r.overrides head.method = some m) (body : sendsProxiedBody r.overrides m = true)
    (ok : (reverseProxyRequest parseUri r d head inbound client).result = .ok out) (reused : out.reuseBackend = true) :
    ∃ target requested uri backend s', firstBackend (! isWebsocketUpgradeRequest head.headers) d = some backend ∧
      proxyOverConnection (generalExchange r target {head with method := m,uri := requested})
        (generalHead r uri {head with method := m,uri := requested} inbound.body)
        ⟨inbound,backend,client⟩ = (.ok out,s') ∧
      reverseProxyRequest parseUri r d head inbound client = ExchangeState.run (.ok out,s') := by
  have notRead : (m == .get) = false ∧ (m == .head) = false := by
    simp only [sendsProxiedBody,sendsBody,Bool.and_eq_true,bne_iff_ne] at body
    simp [body.1.1,body.1.2]
  unfold reverseProxyRequest at ok ⊢
  split at ok
  · cases ok
  · rename_i target found
    rw [method] at ok
    dsimp only at ok
    split at ok
    · cases ok
    · rename_i requested parsed
      split at ok
      · cases ok
      · rename_i uri built
        split at ok
        · unfold rejectTooLarge at ok
          cases ok
          cases reused
        · rename_i small
          have slow : canUseSimpleProxyFastPath {head with method := m,uri := requested}
              inbound.body (isWebsocketUpgradeRequest head.headers) r.rules r.overrides = false := by
            simp [canUseSimpleProxyFastPath,notRead.1]
          have once : replayable {head with method := m,uri := requested} inbound.body = false := by
            simp [replayable,notRead]
          simp only [slow,Bool.false_eq_true,if_false] at ok
          simp only [method,small,slow,Bool.false_eq_true,if_false]
          obtain ⟨s,s',made,same,origin⟩ := attemptsOk ok
          rw [once] at origin
          obtain ⟨first,rfl,rfl⟩ := origin.resolve_right (fun h => by cases h.1)
          exact ⟨target,requested,uri,s.backend,s',first,made,same⟩

end ZeroServe.Proxy
