import ZeroServe.ProxyReply

/-! One proxied exchange over a backend connection: `proxy_over_connection` and its short form for plain GET requests.
A tunnelled upgrade and the waits that run out are inputs. -/
namespace ZeroServe.Proxy
open ByteText ByteSource ChunkCoding H1

structure Exchange where
  headOnly : Bool
  isWsRequest : Bool
  sendRequestBody : Bool
  limit : Option Nat
  watch : Bool
  rules : Rules
  /- After how many pieces the bounded drain of the client runs out, if it does. -/
  linger : Option Nat
  tunnelOk : Bool

structure ExchangeState where
  inbound : Inbound
  backend : Backend
  client : Sink
  deriving DecidableEq

inductive ProxyFailure where
  | noResponse
  | other
  deriving DecidableEq

structure ProxyOutcome where
  reuseBackend : Bool
  send : SendOutcome
  continueRequest : Bool
  preservedBody : Option Body
  deriving DecidableEq

abbrev ExchangeResult := Except ProxyFailure ProxyOutcome × ExchangeState

def drainPayload (i : Inbound) : Inbound :=
  let (_,body,reader) := readAll i.body i.reader
  ⟨body,reader⟩

def takePieces : Nat → Inbound → Inbound
  | 0, i => i
  | k+1, i =>
    match i.next with
    | (some (.ok _),i) => takePieces k i
    | (_,i) => i

def lingerDrain (linger : Option Nat) (i : Inbound) : Bool × Inbound :=
  match linger with
  | none => (true,drainPayload i)
  | some k => (false,takePieces k i)

def outcome (reuse keep : Bool) (status : Nat) : ProxyOutcome := ⟨reuse,⟨keep,status⟩,false,none⟩

def withConn (s : ExchangeState) (conn : Conn) : ExchangeState :=
  {s with backend := {s.backend with conn}}

def relayRaw (raw : RawFixedResponse) (s : ExchangeState) : ExchangeResult :=
  match readAll raw.body s.backend.conn with
  | (.error _,_,conn) => (.error .other,withConn s conn)
  | (.ok pieces,_,conn) =>
    match writeAll (raw.head ++ pieces.flatten) s.client with
    | (false,client) => (.error .other,{withConn s conn with client})
    | (true,client) => (.ok (outcome raw.canReuse true raw.status),{withConn s conn with client})

def readAheadLoop (minLength : Nat) :
    Nat → Bytes → Body → Conn → Option (Bool × Bytes) × Body × Conn
  | 0, _, b, c => (none,b,c)
  | fuel+1, seen, b, c =>
    if minLength < seen.length then (some (false,seen),b,c) else
    match nextData b c with
    | (none,b,c) => (some (true,seen),b,c)
    | (some (.error _),b,c) => (none,b,c)
    | (some (.ok data),b,c) => readAheadLoop minLength fuel (seen ++ data) b c

def encodeLoop (enc : Encoder) :
    Nat → List Bytes → Body → Conn → Sink → Bool × Body × Conn × Sink
  | 0, _, b, c, w => (false,b,c,w)
  | fuel+1, fed, b, c, w =>
    match nextData b c with
    | (some (.error _),b,c) => (false,b,c,w)
    | (some (.ok data),b,c) =>
      match enc.push fed data with
      | none => (false,b,c,w)
      | some out =>
        match writeChunk out w with
        | (false,w) => (false,b,c,w)
        | (true,w) => encodeLoop enc fuel (fed ++ [data]) b c w
    | (none,b,c) =>
      match enc.finish fed with
      | none => (false,b,c,w)
      | some out =>
        match writeChunk out w with
        | (false,w) => (false,b,c,w)
        | (true,w) =>
          let (ok,w) := writeChunkEnd w
          (ok,b,c,w)

def encodeFrom (enc : Encoder) (status : Nat) (headers : HeaderMap) (ahead : Bytes) (b : Body)
    (c : Conn) (w : Sink) : Bool × Body × Conn × Sink :=
  let headers := ((enc.applyEncodingHeaders headers).remove .transferEncoding).insert
    .transferEncoding (.ofAscii "chunked")
  match writeResponseHeadRaw status headers w with
  | (false,w) => (false,b,c,w)
  | (true,w) =>
    if ! enc.ready then (false,b,c,w)
    else if ahead = [] then encodeLoop enc (c.unread.length + 1) [] b c w
    else
      match enc.push [] ahead with
      | none => (false,b,c,w)
      | some out =>
        match writeChunk out w with
        | (false,w) => (false,b,c,w)
        | (true,w) => encodeLoop enc (c.unread.length + 1) [ahead] b c w

def forwardProxyBodyEncoded (enc : Encoder) (minLength status : Nat) (headers : HeaderMap)
    (b : Body) (c : Conn) (w : Sink) : Bool × Body × Conn × Sink :=
  if hint b = .stream then
    match readAheadLoop minLength (c.unread.length + 1) [] b c with
    | (none,b,c) => (false,b,c,w)
    | (some (true,ahead),b,c) =>
      -- all of it stayed below the threshold: sent as it is with a length
      let headers := (headers.remove .transferEncoding).insert .contentLength
        (lengthHeader ahead.length)
      match writeResponseHeadRaw status headers w with
      | (false,w) => (false,b,c,w)
      | (true,w) =>
        if ahead = [] then (true,b,c,w) else
        let (ok,w) := writeAll ahead w
        (ok,b,c,w)
    | (some (false,ahead),b,c) => encodeFrom enc status headers ahead b c w
  else encodeFrom enc status headers [] b c w

structure ReplyHead where
  status : Nat
  headers : HeaderMap
  sendBody : Bool
  deriving DecidableEq

def replyHead (x : Exchange) (bodyHint : StreamHint) (length : Option HeaderValue) (status : Nat)
    (headers : HeaderMap) : ReplyHead :=
  let sendBody := shouldSendProxyBodyRaw status bodyHint x.headOnly
  if sendBody then
    ⟨status,restoreFixedProxyContentLength bodyHint length (applyProxyResponseHeaders bodyHint true headers),true⟩
  else if ! rawStatusAllowsBody status then ⟨status,stripNoBodyHeaders headers,false⟩
  else ⟨status,applyProxyResponseHeaders bodyHint false headers,false⟩

def plainLength (headers : HeaderMap) : Option Nat :=
  ((headers.get .contentLength).bind HeaderValue.toStr).bind (fromStrRadix 10 (2^64))

def chosenEncoder (x : Exchange) (head : ReplyHead) : Option (Encoder × Nat) :=
  if ! head.sendBody then none else
  x.rules.encode.bind (fun state =>
    (state.decide head.status head.headers (plainLength head.headers)).map (·,state.minLength))

def drainProxyPayload (body : Body) (conn : Conn) : Bool × Conn :=
  match readAll body conn with
  | (.ok _,_,conn) => (true,conn)
  | (.error _,_,conn) => (false,conn)

def relayReply (x : Exchange) (head : ReplyHead) (body : Body) (conn : Conn) (client : Sink) :
    Bool × Conn × Sink :=
  match chosenEncoder x head with
  | some (enc,minLength) =>
    let (ok,_,conn,client) :=
      forwardProxyBodyEncoded enc minLength head.status head.headers body conn client
    (ok,conn,client)
  | none =>
    if head.sendBody && ! x.headOnly && x.rules.encode.isNone && hint body == .fixed then
      match readAll body conn with
      | (.error _,_,conn) => (false,conn,client)
      | (.ok pieces,_,conn) =>
        let (ok,client) :=
          writeResponseHeadAndBodyRaw head.status head.headers pieces.flatten client
        (ok,conn,client)
    else
      match writeResponseHeadRaw head.status head.headers client with
      | (false,client) => (false,conn,client)
      | (true,client) =>
        if ! head.sendBody then
          if x.headOnly then (true,conn,client) else
          let (ok,conn) := drainProxyPayload body conn
          (ok,conn,client)
        else
          let (ok,r) := forwardProxyBody body conn client
          (ok,r.conn,r.client)

/- The client's body after the response is there: what was not sent on is drained. A client
that goes on sending past the time limit is told to close. -/
def settleUpload (x : Exchange) (fullySent : Bool) (headers : HeaderMap) (inbound : Inbound) :
    Bool × HeaderMap × Inbound :=
  if ! x.sendRequestBody then (true,headers,drainPayload inbound)
  else if ! fullySent then
    match lingerDrain x.linger inbound with
    | (true,inbound) => (true,headers,inbound)
    | (false,inbound) => (false,headers.insert .connection (.ofAscii "close"),inbound)
  else (true,headers,inbound)

def relayUpgrade (x : Exchange) (status : Nat) (headers : HeaderMap) (s : ExchangeState) :
    ExchangeResult :=
  let o := prepareProxyResponse x.rules status headers
  match writeResponseHeadRaw o.status o.headers s.client with
  | (false,client) => (.error .other,{s with client})
  | (true,client) =>
    if x.tunnelOk then (.ok (outcome false false o.status),{s with client})
    else (.error .other,{s with client})

def relayContinue (x : Exchange) (fullySent canReuse : Bool) (status : Nat) (body : Body)
    (s : ExchangeState) : ExchangeResult :=
  match (if x.headOnly then (true,s.backend.conn) else drainProxyPayload body s.backend.conn) with
  | (false,conn) => (.error .other,withConn s conn)
  | (true,conn) =>
    let s := withConn s conn
    let s := if fullySent then s else {s with inbound := drainPayload s.inbound}
    (.ok ⟨canReuse,⟨true,status⟩,true,
      if x.sendRequestBody then none else some s.inbound.body⟩,s)

def relayParsed (x : Exchange) (fullySent : Bool) (resp : Response) (s : ExchangeState) :
    ExchangeResult :=
  let status := resp.head.status.code
  let canReuse := fullySent && shouldReuseProxyConnection resp.head.version resp.head.headers &&
    ! resp.body.isEof
  let isWsResponse := x.isWsRequest && status == 101
  let headers := stripHopHeaders isWsResponse resp.head.headers
  let bodyHint := hint resp.body
  -- taken from the headers as they are after the stripping
  let fixedContentLength := if bodyHint = .fixed then headers.get .contentLength else none
  if isWsResponse then relayUpgrade x status headers s else
  let headers := applyProxyResponseHeaders bodyHint
    (shouldSendProxyBodyRaw status bodyHint x.headOnly) headers
  let o := prepareProxyResponse x.rules status headers
  if o.continueRequest then relayContinue x fullySent canReuse o.status resp.body s else
  let (clientReusable,headers,inbound) := settleUpload x fullySent o.headers s.inbound
  let head := replyHead x bodyHint fixedContentLength o.status headers
  match relayReply x head resp.body s.backend.conn s.client with
  | (false,conn,client) => (.error .other,{withConn s conn with inbound,client})
  | (true,conn,client) =>
    (.ok (outcome canReuse clientReusable o.status),{withConn s conn with inbound,client})

def readResponse (x : Exchange) (pending : Option Response) (conn : Conn) :
    Except ProxyFailure ResponseRead × Conn :=
  match pending with
  | some r => (.ok (.parsed r),conn)
  | none =>
    if canUseRawFixedProxyResponse x.rules x.isWsRequest x.headOnly then
      match nextFinalResponseFast conn with
      | (.ok (some r),conn) => (.ok r,conn)
      | (_,conn) => (.error .noResponse,conn)
    else
      match nextFinalResponse conn with
      | (.ok (some r),conn) => (.ok (.parsed r),conn)
      | (_,conn) => (.error .noResponse,conn)

def relayResponse (x : Exchange) (fullySent : Bool) (pending : Option Response)
    (s : ExchangeState) : ExchangeResult :=
  match readResponse x pending s.backend.conn with
  | (.error e,conn) => (.error e,withConn s conn)
  | (.ok (.rawFixed raw),conn) => relayRaw raw (withConn s conn)
  | (.ok (.parsed r),conn) => relayParsed x fullySent r (withConn s conn)

/- The body limit was passed while sending: the rest is drained for a while and the client
gets a 413. -/
def answerTooLarge (x : Exchange) (s : ExchangeState) : ExchangeResult :=
  let (drained,inbound) := lingerDrain x.linger s.inbound
  let (send,client) := sendFixed x.rules payloadTooLarge s.client
  (.ok ⟨false,⟨send.keepClient && drained,send.status⟩,false,none⟩,{s with inbound,client})

def proxyOverConnection (x : Exchange) (head : RequestHead) (s : ExchangeState) : ExchangeResult :=
  match sendRequest x.sendRequestBody x.limit x.watch head s.inbound s.backend with
  | (.ok (.completed pending),u) =>
    relayResponse x true pending {s with inbound := u.source,backend := u.backend}
  | (.ok (.earlyResponse r),u) =>
    relayResponse x false (some r) {s with inbound := u.source,backend := u.backend}
  | (.error .head,u) => (.error .noResponse,{s with inbound := u.source,backend := u.backend})
  | (.error (.body .tooLarge),u) =>
    answerTooLarge x {s with inbound := u.source,backend := u.backend}
  | (.error (.body .other),u) => (.error .other,{s with inbound := u.source,backend := u.backend})

def simpleReplyHead (resp : Response) : ReplyHead :=
  let status := resp.head.status.code
  let headers := stripHopHeaders false resp.head.headers
  let bodyHint := hint resp.body
  if shouldSendProxyBodyRaw status bodyHint false then
    ⟨status,applyProxyResponseHeaders bodyHint true headers,true⟩
  else if ! rawStatusAllowsBody status then ⟨status,stripNoBodyHeaders headers,false⟩
  else ⟨status,applyProxyResponseHeaders bodyHint false headers,false⟩

def relaySimple (resp : Response) (s : ExchangeState) : ExchangeResult :=
  let head := simpleReplyHead resp
  let canReuse := shouldReuseProxyConnection resp.head.version resp.head.headers
  match writeResponseHeadRaw head.status head.headers s.client with
  | (false,client) => (.error .other,{s with client})
  | (true,client) =>
    let (ok,conn,client) :=
      if head.sendBody then
        let (ok,r) := forwardProxyBody resp.body s.backend.conn client
        (ok,r.conn,r.client)
      else
        let (ok,conn) := drainProxyPayload resp.body s.backend.conn
        (ok,conn,client)
    if ok then (.ok (outcome canReuse true head.status),{withConn s conn with client})
    else (.error .other,{withConn s conn with client})

def proxySimpleOverConnection (requestHead : Bytes) (s : ExchangeState) : ExchangeResult :=
  match writeAll requestHead s.backend.out with
  | (false,out) => (.error .noResponse,{s with backend := {s.backend with out}})
  | (true,out) =>
    let s := {s with backend := {s.backend with out}}
    match nextFinalResponseFast s.backend.conn with
    | (.ok (some (.rawFixed raw)),conn) => relayRaw raw (withConn s conn)
    | (.ok (some (.parsed r)),conn) => relaySimple r (withConn s conn)
    | (_,conn) => (.error .noResponse,withConn s conn)

theorem relayRawOut (raw : RawFixedResponse) (s : ExchangeState) : (relayRaw raw s).2.backend.out = s.backend.out := by
  unfold relayRaw
  split
  · rfl
  · split <;> rfl

variable (x : Exchange)

theorem relayUpgradeOut (status : Nat) (headers : HeaderMap) (s : ExchangeState) :
    (relayUpgrade x status headers s).2.backend = s.backend := by
  unfold relayUpgrade
  dsimp only
  split
  · rfl
  · split <;> rfl

theorem relayContinueOut (fullySent canReuse : Bool) (status : Nat) (body : Body) (s : ExchangeState) :
    (relayContinue x fullySent canReuse status body s).2.backend.out = s.backend.out := by
  unfold relayContinue
  split
  · rfl
  · cases fullySent <;> rfl

variable (fullySent : Bool)

theorem relayParsedOut (resp : Response) (s : ExchangeState) :
    (relayParsed x fullySent resp s).2.backend.out = s.backend.out := by
  unfold relayParsed
  dsimp only
  split
  · rw [relayUpgradeOut]
  · split
    · exact relayContinueOut _ _ _ _ _ _
    · split <;> rfl

theorem relayResponseOut (pending : Option Response)
    (s : ExchangeState) : (relayResponse x fullySent pending s).2.backend.out = s.backend.out := by
  unfold relayResponse
  split
  · rfl
  · exact relayRawOut _ _
  · exact relayParsedOut _ _ _ _

theorem relayUpgradeReuse {x status} {headers s s' out} (h : relayUpgrade x status headers s = (.ok out,s')) :
    out.reuseBackend = false := by
  unfold relayUpgrade at h
  dsimp only at h
  split at h
  · cases h
  · split at h <;> cases h
    rfl

theorem relayContinueReuse {x fullySent canReuse status} {body s s' out}
    (h : relayContinue x fullySent canReuse status body s = (.ok out,s')) : out.reuseBackend = canReuse := by
  unfold relayContinue at h
  split at h <;> cases h
  rfl

theorem relayParsedReuse {x fullySent resp s s' out} (h : relayParsed x fullySent resp s = (.ok out,s'))
    (reused : out.reuseBackend = true) :
    fullySent = true ∧ shouldReuseProxyConnection resp.head.version resp.head.headers = true ∧
      resp.body.isEof = false := by
  suffices fullySent && shouldReuseProxyConnection resp.head.version resp.head.headers &&
      ! resp.body.isEof by
    simpa [and_assoc] using this
  unfold relayParsed at h
  dsimp only at h
  split at h
  · rw [relayUpgradeReuse h] at reused
    cases reused
  · split at h
    · rw [relayContinueReuse h] at reused
      exact reused
    · split at h <;> cases h
      exact reused

theorem answerTooLargeReuse {x s s' out} (h : answerTooLarge x s = (.ok out,s')) : out.reuseBackend = false := by
  cases h
  rfl

theorem proxyOverConnectionReuse {x head s s' out} (h : proxyOverConnection x head s = (.ok out,s'))
    (reused : out.reuseBackend = true) : ∃ pending u,
      sendRequest x.sendRequestBody x.limit x.watch head s.inbound s.backend = (.ok (.completed pending),u) ∧
      relayResponse x true pending {s with inbound := u.source,backend := u.backend} =
        (.ok out,s') := by
  unfold proxyOverConnection at h
  split at h
  · rename_i pending u sent
    exact ⟨pending,u,sent,h⟩
  · unfold relayResponse readResponse at h
    have sent := (relayParsedReuse h reused).1
    cases sent
  · cases h
  · rw [answerTooLargeReuse h] at reused
    cases reused
  · cases h

theorem readAheadOk {minLength fuel} {seen out ended b b' c c'}
    (h : readAheadLoop minLength fuel seen b c = (some (ended,out),b',c')) : ∃ data, out = seen ++ data ∧
      (∀ p rest, Delimits b' c'.unread p rest → Delimits b c.unread (data ++ p) rest) ∧
      (ended = true → Delimits b c.unread data c'.unread) := by
  induction fuel generalizing seen b c with
  | zero => cases h
  | succ fuel ih =>
    unfold readAheadLoop at h
    split at h
    · cases h
      exact ⟨[],by simp,fun _ _ after => after,fun e => by cases e⟩
    · split at h
      · rename_i last
        cases h
        obtain ⟨done,finish⟩ := nextDataStep last
        refine ⟨[],by simp,fun p rest after => ?_,fun _ => done⟩
        obtain ⟨rfl,rfl⟩ := delimitsUnique (finishedDelimits finish _) after
        exact done
      · cases h
      · rename_i data b1 c1 step
        obtain ⟨more,same,back,whole⟩ := ih h
        obtain ⟨_,_,next⟩ := nextDataStep step
        refine ⟨data ++ more,by simp [same],fun p rest after => ?_,fun e => next _ _ (whole e)⟩
        rw [List.append_assoc]
        exact next _ _ (back p rest after)

theorem encodeLoopOk {enc fuel} {fed b b' c c' w w'} (h : encodeLoop enc fuel fed b c w = (true,b',c',w')) :
    ∃ data, Delimits b c.unread data c'.unread := by
  induction fuel generalizing fed b c w with
  | zero => cases h
  | succ fuel ih =>
    unfold encodeLoop at h
    split at h
    · cases h
    · rename_i data b1 c1 step
      split at h
      · cases h
      · split at h
        · cases h
        · obtain ⟨more,rest⟩ := ih h
          obtain ⟨_,_,next⟩ := nextDataStep step
          exact ⟨data ++ more,next _ _ rest⟩
    · rename_i b1 c1 last
      split at h
      · cases h
      · split at h
        · cases h
        · have same : c1 = c' := congrArg (fun t => t.2.2.1) h
          exact ⟨[],same ▸ (nextDataStep last).1⟩

theorem encodeFromOk {enc status} {headers ahead b b' c c' w w'}
    (h : encodeFrom enc status headers ahead b c w = (true,b',c',w')) : ∃ data, Delimits b c.unread data c'.unread := by
  unfold encodeFrom at h
  dsimp only at h
  split at h
  · cases h
  · split at h
    · cases h
    · split at h
      · exact encodeLoopOk h
      · split at h
        · cases h
        · split at h
          · cases h
          · exact encodeLoopOk h

theorem forwardEncodedOk {enc minLength status} {headers b b' c c' w w'}
    (h : forwardProxyBodyEncoded enc minLength status headers b c w = (true,b',c',w')) :
    ∃ data, Delimits b c.unread data c'.unread := by
  unfold forwardProxyBodyEncoded at h
  split at h
  · split at h
    · cases h
    · rename_i ahead b1 c1 read
      obtain ⟨data,_,_,whole⟩ := readAheadOk read
      dsimp only at h
      split at h
      · cases h
      · split at h
        · cases h
          exact ⟨data,whole rfl⟩
        · have same : c1 = c' := congrArg (fun t => t.2.2.1) h
          exact ⟨data,same ▸ whole rfl⟩
    · rename_i ahead b1 c1 read
      obtain ⟨data,_,back,_⟩ := readAheadOk read
      obtain ⟨more,rest⟩ := encodeFromOk h
      exact ⟨data ++ more,back _ _ rest⟩
  · exact encodeFromOk h

theorem drainProxyOk {body conn conn'} (h : drainProxyPayload body conn = (true,conn')) :
    ∃ data, Delimits body conn.unread data conn'.unread := by
  unfold drainProxyPayload at h
  split at h
  · rename_i pieces b1 c1 read
    cases h
    exact ⟨_,readAllSpec read⟩
  · cases h

/- What is left on a connection when its response has been dealt with: for HEAD requests the
body is taken to be absent, otherwise it has been read to its end. -/
def Consumed (headOnly : Bool) (body : Body) (before after : Conn) : Prop :=
  if headOnly then after.unread = before.unread
  else ∃ data, Delimits body before.unread data after.unread

theorem relayReplyConsumed {x head body conn conn' client client'}
    (bodiless : head.sendBody = true → x.headOnly = false)
    (h : relayReply x head body conn client = (true,conn',client')) : Consumed x.headOnly body conn conn' := by
  unfold relayReply at h
  split at h
  · rename_i enc minLength chosen
    have sends : head.sendBody = true := by
      unfold chosenEncoder at chosen
      split at chosen
      · cases chosen
      · rename_i some; simpa using some
    rw [Consumed,bodiless sends]
    cases sent : forwardProxyBodyEncoded enc minLength head.status head.headers body conn client with
    | mk ok rest =>
      obtain ⟨b1,c1,w1⟩ := rest
      rw [sent] at h
      cases h
      simpa using forwardEncodedOk sent
  · split at h
    · rename_i direct
      simp only [Bool.and_eq_true,Bool.not_eq_true'] at direct
      rw [direct.1.1.2]
      split at h
      · cases h
      · rename_i pieces b1 c1 read
        have same : c1 = conn' := congrArg (fun t => t.2.1) h
        rw [same] at read
        simpa using ⟨_,readAllSpec read⟩
    · split at h
      · cases h
      · split at h
        · split at h
          · rename_i headOnly
            cases h
            rw [Consumed,if_pos headOnly]
          · rename_i withBody
            rw [Consumed,if_neg withBody]
            cases drained : drainProxyPayload body conn with
            | mk ok c1 =>
              rw [drained] at h
              cases h
              exact drainProxyOk drained
        · rename_i sends
          rw [bodiless (by simpa using sends)]
          rename_i client1 _
          cases forwarded : forwardProxyBody body conn client1 with
          | mk ok r =>
            rw [forwarded] at h
            cases h
            obtain ⟨pieces,delimited,_⟩ := forwardProxyBodySpec forwarded
            simpa using ⟨_,delimited⟩

end ZeroServe.Proxy
