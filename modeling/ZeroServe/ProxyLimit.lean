import ZeroServe.BodyLimit
import ZeroServe.ScriptBody

/-! The limit on a proxied request body, over whole requests of both protocols: checked against the declared length
before a backend is chosen, and by the count. -/
namespace ZeroServe.Proxy
open ByteText ByteSource ChunkCoding H1

theorem attemptsOnce {usePool d} {attempt : ExchangeState → ExchangeResult} {inbound client backend}
    (first : firstBackend usePool d = some backend) : attempts usePool false d attempt inbound client =
      ExchangeState.run (attempt ⟨inbound,backend,client⟩) := by
  unfold firstBackend at first
  unfold attempts
  split at first
  · cases first
    split
    · rename_i s failed
      rw [failed]
      rfl
    · rfl
  · rw [first]

structure Proxied (parseUri : Bytes → Option Uri) (r : ProxyRequest) (head : RequestHead)
    (target : BackendTarget) (method : Method) (requested uri : Uri) : Prop where
  aimed : r.target = some target
  asked : overrideMethod r.overrides head.method = some method
  wanted : overrideUri parseUri r.overrides head.uri = some requested
  built : buildBackendUri parseUri target requested = some uri
  sends : sendsProxiedBody r.overrides method = true

variable {parseUri : Bytes → Option Uri}

theorem proxiedMethod {r head target method requested uri}
    (proxied : Proxied parseUri r head target method requested uri) :
    (method == .get) = false ∧ (method == .head) = false := by
  have body := proxied.sends
  simp only [sendsProxiedBody,sendsBody,Bool.and_eq_true,bne_iff_ne] at body
  simp [body.1.1,body.1.2]

structure LimitKept (m : Nat) (payload : Bytes) (x : Exchange) (head : RequestHead)
    (chunked : Bool) (backend : Backend) (client : Sink) (run : ProxyRun) : Prop where
  bounded : ∀ used, run.backend = some used →
    ∃ sent, sent <+: payload ∧ sent.length ≤ m ∧ Delivered backend head chunked sent used
  refused : m < payload.length → ∃ out, run.result = .ok out ∧ out.send.status = 413 ∧
    out.reuseBackend = false ∧ run.client = (sendFixed x.rules payloadTooLarge client).2
  forwarded : payload.length ≤ m → ∃ inbound' backend',
    Delivered backend head chunked payload backend' ∧
      run = ExchangeState.run (relayResponse x true none ⟨inbound',backend',client⟩)

structure LimitKeptH2 (m : Nat) (payload : Bytes) (head : RequestHead) (chunked : Bool)
    (relay : Bool → Option Response → RecvStream → Backend → H2Run) (backend : Backend)
    (run : H2Run) : Prop where
  bounded : (∃ status, run = ⟨.ok ⟨false,false,some status⟩,run.stream,run.response,none⟩) ∨
    ∃ stream' used sent, sent <+: payload ∧ sent.length ≤ m ∧
      Delivered backend head chunked sent used ∧
      (run = ⟨.ok ⟨false,false,some 413⟩,stream',run.response,some used⟩ ∨ run = relay true none stream' used)
  refused : m < payload.length → ∃ out response, run.result = .ok out ∧ out.reuseBackend = false ∧
    run.response = some response ∧ response.status = 413
  forwarded : payload.length ≤ m → ∃ stream' backend',
    Delivered backend head chunked payload backend' ∧ run = relay true none stream' backend'

def TooLargeShown (rules : Rules) : Prop :=
  (prepareFixedResponse rules payloadTooLarge).status.code = 413

def DeclaredRight (headers : HeaderMap) (m : Nat) (payload : Bytes) : Prop :=
  requestBodyContentLengthExceeds headers (some m) = true → m < payload.length

theorem limitExactH1 {r d head inbound client m}
    {target method requested uri backend pieces b' c'} (proxied : Proxied parseUri r head target method requested uri)
    (limit : r.limit = some m) (first : firstBackend (! isWebsocketUpgradeRequest head.headers) d = some backend)
    (sound : backend.out.Sound) (quiet : Silent backend) (sized : inbound.body.isEof = false)
    (read : readAll inbound.body inbound.reader = (.ok pieces,b',c')) :
    LimitKept m pieces.flatten (generalExchange r target {head with method,uri := requested})
        (generalHead r uri {head with method,uri := requested} inbound.body)
        inbound.body.isChunked backend client
        (reverseProxyRequest parseUri r d head inbound client) ↔
      DeclaredRight head.headers m pieces.flatten ∧
        (m < pieces.flatten.length → TooLargeShown r.rules) := by
  have notRead := proxiedMethod proxied
  have slow : canUseSimpleProxyFastPath {head with method,uri := requested}
      inbound.body (isWebsocketUpgradeRequest head.headers) r.rules r.overrides = false := by
    simp [canUseSimpleProxyFastPath,notRead.1]
  have once : replayable {head with method,uri := requested} inbound.body = false := by
    simp [replayable,notRead]
  have open_ : reverseProxyRequest parseUri r d head inbound client =
      if requestBodyContentLengthExceeds head.headers (some m) then rejectTooLarge r inbound client
      else reverseProxyGeneral r target uri d {head with method,uri := requested} inbound client := by
    simp only [reverseProxyRequest,proxied.aimed,proxied.asked,proxied.wanted,proxied.built,
      proxied.sends,limit,slow,Bool.true_and,Bool.false_eq_true,if_false]
  rw [open_]
  by_cases declared : requestBodyContentLengthExceeds head.headers (some m) = true
  · rw [if_pos declared]
    constructor
    · intro kept
      have large : m < pieces.flatten.length := by
        by_contra small
        obtain ⟨_,_,_,same⟩ := kept.forwarded (Nat.le_of_not_lt small)
        exact absurd (congrArg ProxyRun.backend same) (by simp [rejectTooLarge,ExchangeState.run])
      refine ⟨fun _ => large,fun _ => ?_⟩
      obtain ⟨out,ok,status,-⟩ := kept.refused large
      cases ok
      exact status
    · rintro ⟨right,shown⟩
      have large := right declared
      exact ⟨fun used no => (by cases no),fun _ => ⟨_,rfl,shown large,rfl,rfl⟩,fun small => (by omega)⟩
  · rw [if_neg declared]
    have general : reverseProxyGeneral r target uri d {head with method,uri := requested} inbound
        client = ExchangeState.run (proxyOverConnection (generalExchange r target {head with method,uri := requested})
          (generalHead r uri {head with method,uri := requested} inbound.body)
          ⟨inbound,backend,client⟩) := by
      unfold reverseProxyGeneral
      rw [once]
      exact attemptsOnce first
    rw [general]
    have sends : (generalExchange r target {head with method,uri := requested}).sendRequestBody =
        true := proxied.sends
    have bound : (generalExchange r target {head with method,uri := requested}).limit = some m := limit
    have right : DeclaredRight head.headers m pieces.flatten := fun over_ => absurd over_ declared
    generalize generalHead r uri {head with method,uri := requested} inbound.body = out at *
    have rules : (generalExchange r target {head with method,uri := requested}).rules = r.rules := rfl
    generalize generalExchange r target {head with method,uri := requested} = x at *
    have sent := sendRequestWithin m x.watch out sized sound quiet read
    unfold proxyOverConnection
    rw [sends,bound]
    cases step : sendRequest true (some m) x.watch out inbound backend with
    | mk result u =>
      rw [step] at sent
      unfold SentWithin at sent
      by_cases small : pieces.flatten.length ≤ m
      · rw [if_pos small] at sent
        obtain ⟨rfl,delivered⟩ := sent
        refine iff_of_true ⟨?_,fun large => (by omega),fun _ => ⟨u.source,u.backend,delivered,rfl⟩⟩
          ⟨right,fun large => by omega⟩
        intro used same
        refine ⟨pieces.flatten,List.prefix_rfl,small,?_⟩
        obtain ⟨sent,tail,all,ended,written⟩ := delivered
        refine ⟨sent,tail,all,ended,?_⟩
        have kept := relayResponseOut x true none ⟨u.source,u.backend,client⟩
        cases same
        rw [kept]
        exact written
      · rw [if_neg small] at sent
        obtain ⟨rfl,part,front,few,delivered⟩ := sent
        constructor
        · intro kept
          refine ⟨right,fun large => ?_⟩
          obtain ⟨_,ok,status,-⟩ := kept.refused large
          cases ok
          rw [← rules]
          exact status
        · rintro ⟨-,shown⟩
          refine ⟨fun used same => ?_,fun large => ⟨_,rfl,?_,rfl,rfl⟩,fun no => absurd no small⟩
          · cases same
            exact ⟨part,front,few,delivered⟩
          · have status := shown large
            rw [← rules] at status
            exact status

theorem attemptsH2Once {d} {attempt : RecvStream → Backend → H2Run} {stream backend}
    (first : firstBackend true d = some backend) : attemptsH2 false d attempt stream = attempt stream backend := by
  unfold firstBackend at first
  unfold attemptsH2
  rw [if_pos rfl] at first
  cases chosen : d.pooled with
  | some backend =>
    rw [chosen] at first
    cases first
    rfl
  | none =>
    rw [chosen] at first
    dsimp only at first ⊢
    rw [first]

theorem limitExactH2 {relay : Bool → Option Response → RecvStream → Backend → H2Run}
    {r d head stream m} {target method requested uri backend}
    (proxied : Proxied parseUri r head target method requested uri) (limit : r.limit = some m)
    (first : firstBackend true d = some backend)
    (used : ∀ fully pending s be, (relay fully pending s be).backend ≠ none) (sound : backend.out.Sound)
    (quiet : Silent backend) (whole : ∀ f ∈ stream.frames, f ≠ none) :
    LimitKeptH2 m stream.data (h2Framing r uri {head with method,uri := requested} stream).2
        (h2Framing r uri {head with method,uri := requested} stream).1 relay backend
        (reverseProxyRequestH2 relay parseUri r d head stream) ↔
      DeclaredRight head.headers m stream.data ∧
        (m < stream.data.length → TooLargeShown r.rules) := by
  have notRead := proxiedMethod proxied
  have sends : sendsBody method = true := by
    have both := proxied.sends
    simp only [sendsProxiedBody,Bool.and_eq_true] at both
    exact both.1
  have open_ : reverseProxyRequestH2 relay parseUri r d head stream =
      if requestBodyContentLengthExceeds head.headers (some m) then
        ⟨.ok ⟨false,false,some (sendH2Response r.rules r.headOnly payloadTooLarge).status⟩,stream,
          some (sendH2Response r.rules r.headOnly payloadTooLarge),none⟩
      else proxyOverConnectionH2 relay r (target.scheme != .https) uri
        {head with method,uri := requested} stream backend := by
    simp only [reverseProxyRequestH2,proxied.aimed,proxied.asked,proxied.wanted,proxied.built,
      proxied.sends,limit,notRead.1,notRead.2,Bool.true_and,Bool.or_false,Bool.false_and]
    rw [attemptsH2Once first]
  rw [open_]
  by_cases declared : requestBodyContentLengthExceeds head.headers (some m) = true
  · rw [if_pos declared]
    constructor
    · intro kept
      have large : m < stream.data.length := by
        by_contra small
        obtain ⟨s,be,_,same⟩ := kept.forwarded (Nat.le_of_not_lt small)
        exact used true none s be (by rw [← same])
      refine ⟨fun _ => large,fun _ => ?_⟩
      obtain ⟨out,response,-,-,sent,status⟩ := kept.refused large
      cases sent
      exact status
    · rintro ⟨right,shown⟩
      have large := right declared
      refine ⟨.inl ⟨_,rfl⟩,fun _ => ⟨_,_,rfl,rfl,rfl,shown large⟩,fun small => by omega⟩
  · rw [if_neg declared]
    have right : DeclaredRight head.headers m stream.data := fun over_ => absurd over_ declared
    have sent := sendRequestH2Within r uri m (target.scheme != .https)
      {head with method,uri := requested} sends sound quiet whole
    unfold proxyOverConnectionH2
    rw [limit]
    cases step : sendRequestH2 r.forwarding uri (some m) (target.scheme != .https) method
        (r.overrides.headers.getD head.headers) stream backend with
    | mk result u =>
      rw [step] at sent
      unfold SentWithin at sent
      by_cases small : stream.data.length ≤ m
      · rw [if_pos small] at sent
        obtain ⟨rfl,delivered⟩ := sent
        exact iff_of_true ⟨.inr ⟨u.source,u.backend,stream.data,List.prefix_rfl,small,delivered,.inr rfl⟩,
          fun large => by omega,fun _ => ⟨u.source,u.backend,delivered,rfl⟩⟩
          ⟨right,fun large => by omega⟩
      · rw [if_neg small] at sent
        obtain ⟨rfl,part,front,few,delivered⟩ := sent
        constructor
        · intro kept
          refine ⟨right,fun large => ?_⟩
          obtain ⟨_,response,-,-,shown,status⟩ := kept.refused large
          cases shown
          exact status
        · rintro ⟨-,shown⟩
          refine ⟨.inr ⟨u.source,u.backend,part,front,few,delivered,.inl rfl⟩,
            fun large => ⟨_,_,rfl,rfl,rfl,shown large⟩,fun no => absurd no small⟩

/- The limit is kept, for both protocols, exactly when the declared length is right about
it and the 413 is shown as such. -/
theorem bodyLimitExact {r : ProxyRequest} {d : Dials}
    {head : RequestHead} {m : Nat} {target : BackendTarget} {method : Method} {requested uri : Uri} {backend : Backend}
    (proxied : Proxied parseUri r head target method requested uri) (limit : r.limit = some m)
    (sound : backend.out.Sound) (quiet : Silent backend) : (∀ inbound client pieces b' c',
      firstBackend (! isWebsocketUpgradeRequest head.headers) d = some backend →
      inbound.body.isEof = false → readAll inbound.body inbound.reader = (.ok pieces,b',c') →
      (LimitKept m pieces.flatten (generalExchange r target {head with method,uri := requested})
          (generalHead r uri {head with method,uri := requested} inbound.body)
          inbound.body.isChunked backend client
          (reverseProxyRequest parseUri r d head inbound client) ↔
        DeclaredRight head.headers m pieces.flatten ∧
          (m < pieces.flatten.length → TooLargeShown r.rules))) ∧
    (∀ relay stream, firstBackend true d = some backend →
      (∀ fully pending s be, (relay fully pending s be).backend ≠ none) →
      (∀ f ∈ stream.frames, f ≠ none) →
      (LimitKeptH2 m stream.data (h2Framing r uri {head with method,uri := requested} stream).2
          (h2Framing r uri {head with method,uri := requested} stream).1 relay backend
          (reverseProxyRequestH2 relay parseUri r d head stream) ↔
        DeclaredRight head.headers m stream.data ∧
          (m < stream.data.length → TooLargeShown r.rules))) :=
  ⟨fun _ _ _ _ _ first sized read => limitExactH1 proxied limit first sound quiet sized read,
    fun _ _ first used whole => limitExactH2 proxied limit first used sound quiet whole⟩

def limitedProxy (m : Nat) : ProxyRequest := {plainProxy with limit := some m}

theorem fiveOfFourRefused :
    (reverseProxyRequest onlyRoot (limitedProxy 4) answerOk (postOf [(.contentLength,.ofAscii "5")])
      ⟨.fixed 5,bufferOf "hello"⟩ ⟨[],[],0⟩).result = .ok ⟨false,⟨true,413⟩,false,none⟩ ∧ LimitKept 4 (ascii "hello")
      (generalExchange (limitedProxy 4) backendRoot (postOf [(.contentLength,.ofAscii "5")]))
      (generalHead (limitedProxy 4) rootUri (postOf [(.contentLength,.ofAscii "5")]) (.fixed 5)) false
      ⟨clientOf "HTTP/1.1 200 OK\r\nContent-Length: 2\r\n\r\nok",⟨[],[],0⟩,[],[]⟩ ⟨[],[],0⟩
      (reverseProxyRequest onlyRoot (limitedProxy 4) answerOk
        (postOf [(.contentLength,.ofAscii "5")]) ⟨.fixed 5,bufferOf "hello"⟩ ⟨[],[],0⟩) := by
  have proxied : Proxied onlyRoot (limitedProxy 4) (postOf [(.contentLength,.ofAscii "5")])
      backendRoot (.ofAscii "POST") rootUri rootUri :=
    ⟨rfl,rfl,rfl,by decide +kernel,by decide +kernel⟩
  refine ⟨by decide +kernel,?_⟩
  refine ((bodyLimitExact (d := answerOk) (m := 4) proxied rfl
    (fun o mem => by cases mem) ⟨rfl,fun a mem => by cases mem⟩).1
    ⟨.fixed 5,bufferOf "hello"⟩ ⟨[],[],0⟩ [ascii "hello"] (.fixed 0) ⟨[],⟨[],[]⟩⟩ rfl rfl
    (by decide +kernel)).mpr ⟨fun _ => by decide +kernel,fun _ => ?_⟩
  unfold TooLargeShown
  decide +kernel

theorem overriddenLengthRefused : ∃ request conn,
    nextRequest onlyRoot (clientOf "POST / HTTP/1.1\r\nHost: a\r\nTransfer-Encoding: chunked\r\nContent-Length: 100\r\n\r\n1\r\nx\r\n0\r\n\r\n") =
      (.ok (some request),conn) ∧ (readAll request.body conn).1 = .ok [ascii "x"] ∧
    (reverseProxyRequest onlyRoot (limitedProxy 10) answerOk request.head ⟨request.body,conn⟩
      ⟨[],[],0⟩).result = .ok ⟨false,⟨true,413⟩,false,none⟩ ∧
    (reverseProxyRequest onlyRoot (limitedProxy 10) answerOk request.head ⟨request.body,conn⟩
      ⟨[],[],0⟩).backend = none :=
  ⟨⟨postOf [(.transferEncoding,.ofAscii "chunked"),(.contentLength,.ofAscii "100")],newChunked⟩,
    bufferOf "1\r\nx\r\n0\r\n\r\n",by decide +kernel,by decide +kernel,by decide +kernel,
    by decide +kernel⟩

end ZeroServe.Proxy
