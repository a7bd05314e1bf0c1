import ZeroServe.ConnectionPool
import ZeroServe.FinalRead
import ZeroServe.ScriptBody

/-! When a failure marked `ProxyNoResponse` is one: the marker goes on every error of the read of a response, so it is
right only if the backend sends nothing or its answer cannot make that read fail. -/
namespace ZeroServe.Proxy
open ByteText ByteSource H1 EventRun

def parseAs (fast : Bool) (raw : Bytes) : Except HttpError ResponseRead :=
  if fast then
    match rawFixedResponse raw with
    | .ok (some response) => .ok (.rawFixed response)
    | .ok none => (parseResponse raw).map .parsed
    | .error e => .error e
  else (parseResponse raw).map .parsed

def finalAs (fast : Bool) (c : Conn) : Except HttpError (Option ResponseRead) × Conn :=
  nextFinal (nextMessage (parseAs fast)) ResponseRead.isInterim maxInterimResponses c

theorem fastIsMessage (c : Conn) : nextResponseFast c = nextMessage (parseAs true) c := by
  unfold nextResponseFast nextMessage parseAs
  obtain ⟨⟨r,c1⟩,read⟩ : ∃ r, readHeaders c = r := ⟨_,rfl⟩
  rw [read]
  cases r with
  | error e => rfl
  | ok head =>
    cases head with
    | none => rfl
    | some raw =>
      dsimp only
      cases rawFixedResponse raw with
      | error e => rfl
      | ok taken =>
        cases taken with
        | some response => rfl
        | none =>
          cases parseResponse raw <;> rfl

theorem finalFast (c : Conn) : nextFinalResponseFast c = finalAs true c := by
  rw [nextFinalResponseFast,finalAs,funext fastIsMessage]

theorem finalPlain (left : Nat) (c : Conn) : nextFinal (nextMessage (parseAs false)) ResponseRead.isInterim left c =
      ((nextFinal nextResponse (fun r => isInterimResponseStatus r.head.status) left c).1.map (Option.map .parsed),
        (nextFinal nextResponse (fun r => isInterimResponseStatus r.head.status) left c).2) := by
  induction left generalizing c with
  | zero => rfl
  | succ left ih =>
    unfold nextFinal
    rw [responseIsMessage]
    unfold nextMessage parseAs
    obtain ⟨⟨r,c1⟩,read⟩ : ∃ r, readHeaders c = r := ⟨_,rfl⟩
    rw [read]
    cases r with
    | error e => rfl
    | ok head =>
      cases head with
      | none => rfl
      | some raw =>
        dsimp only [Bool.false_eq_true]
        cases parseResponse raw with
        | error e => rfl
        | ok r =>
          change (if isInterimResponseStatus r.head.status then _ else _) = _
          dsimp only [Except.map]
          split
          · exact ih c1
          · rfl

def Refused (fast : Bool) (c c' : Conn) : Prop := ∃ r, finalAs fast c = (r,c') ∧ ∀ v, r ≠ .ok (some v)

theorem finalSplit (fast : Bool) (c : Conn) :
    (∃ v c', finalAs fast c = (.ok (some v),c')) ∨ ∃ c', Refused fast c c' := by
  obtain ⟨⟨r,c'⟩,read⟩ : ∃ r, finalAs fast c = r := ⟨_,rfl⟩
  cases r with
  | error e => exact .inr ⟨c',_,read,fun v same => by cases same⟩
  | ok r =>
    cases r with
    | none => exact .inr ⟨c',_,read,fun v same => by cases same⟩
    | some v => exact .inl ⟨v,c',read⟩

theorem refusedResult {fast c c'} (refused : Refused fast c c') :
    (∃ e, finalAs fast c = (.error e,c')) ∨ finalAs fast c = (.ok none,c') := by
  obtain ⟨r,read,none⟩ := refused
  cases r with
  | error e => exact .inl ⟨e,read⟩
  | ok r =>
    cases r with
    | none => exact .inr read
    | some v => exact absurd rfl (none v)

theorem plainRefused {c c'} (refused : Refused false c c') :
    (∃ e, nextFinalResponse c = (.error e,c')) ∨ nextFinalResponse c = (.ok none,c') := by
  have read := refusedResult refused
  obtain ⟨⟨r,c1⟩,plain⟩ : ∃ r, nextFinalResponse c = r := ⟨_,rfl⟩
  rw [finalAs,finalPlain,← nextFinalResponse,plain] at read
  cases r with
  | error e =>
    rcases read with ⟨e',same⟩ | same <;> cases same
    exact .inl ⟨e,plain⟩
  | ok r =>
    cases r with
    | none =>
      rcases read with ⟨e',same⟩ | same <;> cases same
      exact .inr plain
    | some v => rcases read with ⟨e',same⟩ | same <;> cases same

theorem readRefused {x c c'} (refused : Refused (canUseRawFixedProxyResponse x.rules x.isWsRequest x.headOnly) c c') :
    readResponse x none c = (.error .noResponse,c') := by
  unfold readResponse
  cases fast : canUseRawFixedProxyResponse x.rules x.isWsRequest x.headOnly with
  | true =>
    rw [fast] at refused
    rcases refusedResult refused with ⟨e,read⟩ | read <;> simp only [if_true,finalFast,read]
  | false =>
    rw [fast] at refused
    rcases plainRefused refused with ⟨e,read⟩ | read <;> simp only [Bool.false_eq_true,if_false,read]

theorem readFound {x c c' v}
    (read : finalAs (canUseRawFixedProxyResponse x.rules x.isWsRequest x.headOnly) c = (.ok (some v),c')) :
    readResponse x none c = (.ok v,c') := by
  unfold readResponse
  cases fast : canUseRawFixedProxyResponse x.rules x.isWsRequest x.headOnly with
  | true =>
    rw [fast] at read
    simp only [if_true,finalFast,read]
  | false =>
    rw [fast,finalAs,finalPlain,← nextFinalResponse] at read
    obtain ⟨⟨r,c1⟩,plain⟩ : ∃ r, nextFinalResponse c = r := ⟨_,rfl⟩
    rw [plain] at read
    simp only [plain]
    cases r with
    | error e => cases read
    | ok r => cases r <;> cases read; rfl

theorem readMarked {x pending c c' e} (h : readResponse x pending c = (.error e,c')) :
    pending = none ∧ Refused (canUseRawFixedProxyResponse x.rules x.isWsRequest x.headOnly) c c' := by
  cases pending with
  | some r => cases h
  | none =>
    refine ⟨rfl,?_⟩
    rcases finalSplit (canUseRawFixedProxyResponse x.rules x.isWsRequest x.headOnly) c with ⟨v,c1,read⟩ | ⟨c1,refused⟩
    · rw [readFound read] at h
      cases h
    · rw [readRefused refused] at h
      cases h
      exact refused

theorem relayRawOther {raw s s'} : relayRaw raw s ≠ (.error .noResponse,s') := by
  intro h
  unfold relayRaw at h
  split at h
  · cases h
  · split at h <;> cases h

theorem relayUpgradeOther {x status} {headers s s'} : relayUpgrade x status headers s ≠ (.error .noResponse,s') := by
  intro h
  unfold relayUpgrade at h
  dsimp only at h
  split at h
  · cases h
  · split at h <;> cases h

theorem relayContinueOther {x fullySent canReuse status} {body s s'} :
    relayContinue x fullySent canReuse status body s ≠ (.error .noResponse,s') := by
  intro h
  unfold relayContinue at h
  split at h <;> cases h

theorem relayParsedOther {x fullySent resp s s'} : relayParsed x fullySent resp s ≠ (.error .noResponse,s') := by
  intro h
  unfold relayParsed at h
  dsimp only at h
  split at h
  · exact relayUpgradeOther h
  · split at h
    · exact relayContinueOther h
    · split at h <;> cases h

theorem relaySimpleOther {resp s s'} : relaySimple resp s ≠ (.error .noResponse,s') := by
  intro h
  unfold relaySimple at h
  dsimp only at h
  split at h
  · cases h
  · split at h <;> split at h <;> cases h

def Attempt.fast : Attempt → Bool
  | .general x _ => canUseRawFixedProxyResponse x.rules x.isWsRequest x.headOnly
  | .simple _ => true

/- What a marked failure has done: nothing but the failed write of the request, or the read that
brought no response, on the connection as the upload left it. -/
inductive Unanswered (a : Attempt) (s s' : ExchangeState) : Prop where
  | unsent (same : s'.backend.conn = s.backend.conn)
  | unread {c : Conn} (left : ∀ {K}, Watches K → K s.backend.conn none → K c none)
      (refused : Refused a.fast c s'.backend.conn)

theorem relayMarked {x fullySent pending s s'} (h : relayResponse x fullySent pending s = (.error .noResponse,s')) :
    s'.client = s.client ∧ pending = none ∧
      Refused (canUseRawFixedProxyResponse x.rules x.isWsRequest x.headOnly) s.backend.conn s'.backend.conn := by
  unfold relayResponse at h
  split at h
  · rename_i failed
    cases h
    exact ⟨rfl,readMarked failed⟩
  · exact absurd h relayRawOther
  · exact absurd h relayParsedOther

theorem markedGeneral {x head s s'} (h : proxyOverConnection x head s = (.error .noResponse,s')) :
    s'.client = s.client ∧ Unanswered (.general x head) s s' := by
  unfold proxyOverConnection at h
  split at h
  · rename_i pending u sent
    obtain ⟨client,rfl,refused⟩ := relayMarked h
    exact ⟨client,.unread (fun watches before => sendRequestWatched watches (.inr ⟨_,rfl⟩) before sent) refused⟩
  · obtain ⟨_,none,_⟩ := relayMarked h
    cases none
  · rename_i u failed
    cases h
    refine ⟨rfl,.unsent ?_⟩
    unfold sendRequest sendMessage at failed
    split at failed
    · cases failed
      rfl
    · split at failed
      · split at failed <;> cases failed
      · cases failed
  · cases h
  · cases h

theorem markedSimple {requestHead s s'} (h : proxySimpleOverConnection requestHead s = (.error .noResponse,s')) :
    s'.client = s.client ∧ Unanswered (.simple requestHead) s s' := by
  unfold proxySimpleOverConnection at h
  split at h
  · cases h
    exact ⟨rfl,.unsent rfl⟩
  · rename_i out wrote
    dsimp only at h
    rw [finalFast] at h
    rcases finalSplit true s.backend.conn with ⟨v,c1,read⟩ | ⟨c1,refused⟩
    · rw [read] at h
      cases v with
      | rawFixed raw => exact absurd h relayRawOther
      | parsed r => exact absurd h relaySimpleOther
    · rcases refusedResult refused with ⟨e,read⟩ | read <;> rw [read] at h <;> cases h <;>
        exact ⟨rfl,.unread (fun _ before => before) refused⟩

theorem marked {a s s'} (h : a.run s = (.error .noResponse,s')) : s'.client = s.client ∧ Unanswered a s s' := by
  cases a with
  | general x head => exact markedGeneral h
  | simple requestHead => exact markedSimple h

/- The backend's answer is up to sixteen heads of bounded size, the last one final. -/
def Attempt.Whole (a : Attempt) (stream : Bytes) : Prop :=
  AnswerWhole (parseAs a.fast) ResponseRead.isInterim maxInterimResponses stream

theorem interimAs {fast s raw after r v} (place : HeadAt s raw after) (parsed : parseResponse raw = .ok r)
    (interim : isInterimResponseStatus r.head.status = true) (read : parseAs fast raw = .ok v) :
    v.isInterim = true := by
  unfold parseAs at read
  rw [parsed] at read
  split at read
  · split at read
    · rename_i accepted
      rw [rawNotInterim (headAtFull place) accepted (parsedResponse parsed).1] at interim
      cases interim
    · cases read
      exact interim
    · cases read
  · cases read
    exact interim

theorem wholeWatches (fast : Bool) : Watches fun c found => found = none → Steady c.io ∧
    AnswerWhole (parseAs fast) ResponseRead.isInterim maxInterimResponses c.unread where
  more before read _ := by
    obtain ⟨steady,whole⟩ := before rfl
    exact ⟨readMoreKeeps pullLasts read steady,by rw [fillBufUnread read]; exact whole⟩
  passed {c c' r} before taken interim _ := by
    obtain ⟨steady,idx,v,found,small,read,later⟩ := before rfl
    obtain ⟨raw,place,parsed⟩ := tryNextResponseAt taken
    cases Option.some.inj (found.symm.trans place.2)
    have front : c.unread.take raw.length = raw := by rw [place.1,List.append_assoc,List.take_left]
    have rest : c.unread.drop (raw.length + 4) = c'.unread := by
      rw [place.1]
      exact List.drop_left' (List.length_append)
    rw [front] at read
    rw [rest] at later
    exact ⟨tryNextResponseIo taken ▸ steady,answerWholeMore (Nat.le_succ _) (later (interimAs place parsed interim read))⟩
  found _ _ _ none := by cases none

theorem emptyWatches : Watches fun c _ => c.io.bytes.length ≤ 0 where
  more before read := readMoreKeeps (P := fun s => s.bytes.length ≤ 0) (pullFewer 0) read before
  passed before taken _ := by rw [tryNextResponseIo taken]; exact before
  found before taken _ := by rw [tryNextResponseIo taken]; exact before

def MarkedSafe (delivered : Source → Prop) (a : Attempt) (stream : Bytes) : Prop :=
  ∀ s s', s.backend.conn.buf = [] → s.backend.conn.io.bytes = stream → delivered s.backend.conn.io →
    a.run s = (.error .noResponse,s') → s'.backend.conn.io.bytes = stream ∧ s'.client = s.client

theorem emptySafe (delivered : Source → Prop) (a : Attempt) : MarkedSafe delivered a [] := by
  intro s s' _ empty _ h
  obtain ⟨client,left⟩ := marked h
  refine ⟨?_,client⟩
  cases left with
  | unsent same => rw [same,empty]
  | unread left refused =>
    have still := left emptyWatches (Nat.le_of_eq (congrArg List.length empty))
    obtain ⟨r,read,_⟩ := refused
    exact List.length_eq_zero_iff.mp (Nat.le_zero.mp
      (finalKeeps (P := fun s => s.bytes.length ≤ 0) (pullFewer 0) read still))

theorem wholeSafe {a stream} (whole : a.Whole stream) : MarkedSafe Steady a stream := by
  intro s s' empty bytes steady h
  obtain ⟨client,left⟩ := marked h
  refine ⟨?_,client⟩
  cases left with
  | unsent same => rw [same,bytes]
  | unread left refused =>
    have there : s.backend.conn.unread = stream := by rw [Conn.unread,empty,bytes]; rfl
    obtain ⟨steady,still⟩ := left (wholeWatches a.fast) (fun _ => ⟨steady,there ▸ whole⟩) rfl
    obtain ⟨v,c',read⟩ := finalWhole le_rfl steady still
    obtain ⟨r,refusal,none⟩ := refused
    cases refusal.symm.trans read
    exact absurd rfl (none v)

def takenState (io : Source) : ExchangeState := ⟨unused,⟨⟨[],io⟩,⟨[],[],0⟩,[],[]⟩,⟨[],[],0⟩⟩

theorem refusedMarked {a : Attempt} {io : Source} {c : Conn} (refused : Refused a.fast ⟨[],io⟩ c) :
    ∃ s', a.run (takenState io) = (.error .noResponse,s') ∧ s'.backend.conn = c := by
  cases a with
  | general x head =>
    have sent : ∃ u, sendRequest x.sendRequestBody x.limit x.watch head unused ⟨⟨[],io⟩,⟨[],[],0⟩,[],[]⟩ =
        (.ok (.completed none),u) ∧ u.backend.conn = ⟨[],io⟩ := by
      cases x.sendRequestBody <;> exact ⟨_,rfl,rfl⟩
    obtain ⟨u,sent,conn⟩ := sent
    refine ⟨withConn ⟨u.source,u.backend,⟨[],[],0⟩⟩ c,?_,rfl⟩
    change proxyOverConnection x head (takenState io) = _
    unfold proxyOverConnection takenState
    rw [sent]
    dsimp only
    rw [relayResponse,conn,readRefused refused]
  | simple requestHead =>
    refine ⟨withConn ⟨unused,⟨⟨[],io⟩,⟨requestHead,[],1⟩,[],[]⟩,⟨[],[],0⟩⟩ c,?_,rfl⟩
    change proxySimpleOverConnection requestHead (takenState io) = _
    unfold proxySimpleOverConnection takenState
    simp only [finalFast]
    change Refused true ⟨[],io⟩ c at refused
    rcases refusedResult refused with ⟨e,read⟩ | read <;> rw [read] <;> rfl

theorem refusedUnsafe {delivered : Source → Prop} {a : Attempt} (io : Source) {rest : Source} {got : Bytes} {c : Conn}
    (allowed : delivered io) (pulled : pull readBufSize io = (some got,rest)) (more : got ≠ [])
    (refused : Refused a.fast ⟨[],io⟩ c) : ¬ MarkedSafe delivered a io.bytes := by
  intro safe
  obtain ⟨s',run,conn⟩ := refusedMarked refused
  obtain ⟨same,_⟩ := safe (takenState io) s' rfl rfl allowed run
  obtain ⟨r,read,_⟩ := refused
  rw [conn] at same
  exact finalFirst pulled more read same

theorem anyUnsafe {a x xs} : ¬ MarkedSafe (fun _ => True) a (x::xs) := by
  obtain ⟨e,c',read⟩ := brokenFails (parseAs a.fast) ResponseRead.isInterim maxInterimResponses x xs
  exact refusedUnsafe (brokenOff (x::xs)) trivial brokenPull (by simp)
    ⟨_,read,fun v same => by cases same⟩

theorem partUnsafe {a x xs} (part : ¬ a.Whole (x::xs)) : ¬ MarkedSafe Steady a (x::xs) := by
  rcases finalSplit a.fast (dripped (x::xs)) with ⟨v,c',read⟩ | ⟨c',refused⟩
  · exact absurd (finalDripped (drippedDrip _) read) part
  · have first : pull readBufSize (dripped (x::xs)).io = (some [x],⟨xs,List.replicate xs.length (some 0)⟩) := rfl
    exact refusedUnsafe (dripped (x::xs)).io (drippedDrip _).drips.steady first (by simp) refused

theorem anySafe (a : Attempt) (stream : Bytes) : MarkedSafe (fun _ => True) a stream ↔ stream = [] := by
  cases stream with
  | nil => exact ⟨fun _ => rfl,fun _ => emptySafe _ a⟩
  | cons x xs => exact ⟨fun safe => absurd safe anyUnsafe,fun h => by cases h⟩

theorem steadySafe (a : Attempt) (stream : Bytes) : MarkedSafe Steady a stream ↔ stream = [] ∨ a.Whole stream := by
  cases stream with
  | nil => exact ⟨fun _ => .inl rfl,fun _ => emptySafe _ a⟩
  | cons x xs =>
    refine ⟨fun safe => .inr ?_,fun h => wholeSafe (h.resolve_left (by simp))⟩
    by_contra part
    exact partUnsafe part safe

def Replayed (parseUri : Bytes → Option Uri) (r : ProxyRequest) (b : Backend) (head : RequestHead)
    (inbound : Inbound) (client : Sink) : Prop :=
  ∃ fresh fresh', reverseProxyRequest parseUri r ⟨some b,fresh⟩ head inbound client ≠
    reverseProxyRequest parseUri r ⟨some b,fresh'⟩ head inbound client

theorem attemptsUnmarked {attempt : ExchangeState → ExchangeResult} (b : Backend) (inbound : Inbound) (client : Sink)
    (unmarked : ∀ s', attempt ⟨inbound,b,client⟩ ≠ (.error .noResponse,s')) (again : Bool)
    (fresh : List (Option Backend)) :
    attempts true again ⟨some b,fresh⟩ attempt inbound client = ExchangeState.run (attempt ⟨inbound,b,client⟩) := by
  unfold attempts
  rw [if_pos rfl]
  dsimp only
  split
  · rename_i failed
    exact absurd failed (unmarked _)
  · rfl

theorem replayedMarked {parseUri : Bytes → Option Uri} {r b head inbound client}
    (plain : isWebsocketUpgradeRequest head.headers = false) (replayed : Replayed parseUri r b head inbound client) :
    ∃ (a : Attempt) (s' : ExchangeState), a.run ⟨inbound,b,client⟩ = (.error .noResponse,s') := by
  by_contra unmarked
  obtain ⟨fresh,fresh',differs⟩ := replayed
  have simple := fun requestHead again => attemptsUnmarked b inbound client
    (fun s' failed => unmarked ⟨.simple requestHead,s',failed⟩) again
  have general := fun x head again => attemptsUnmarked b inbound client
    (fun s' failed => unmarked ⟨.general x head,s',failed⟩) again
  apply differs
  simp only [Attempt.run] at simple general
  simp only [reverseProxyRequest,reverseProxySimpleRequest,reverseProxyGeneral,plain,Bool.not_false,simple,general]

theorem lentEmpty (events : List PoolEvent) : ∀ l ∈ (run poolStep idlePool events).lent, l.backend.conn.buf = [] := by
  have start : Everywhere (fun b => b.conn.buf = []) idlePool :=
    ⟨fun _ _ mem => (List.not_mem_nil mem).elim,fun _ mem => (List.not_mem_nil mem).elim⟩
  exact (runKeeps (fun s e all => poolStepKeeps (fun _ => rfl) (fun _ _ _ _ empty => empty) all) start events).2

/- A connection that an attempt is made on has nothing buffered, and a request tried again had a marked failure on the
pooled one. Such a failure is sure to have received none of a backend's bytes, and to have written none to the client,
exactly if there are none; or, where no read fails, if they hold a whole answer. -/
theorem markedSafeExact (events : List PoolEvent) (a : Attempt) (stream : Bytes) :
    (∀ l ∈ (run poolStep idlePool events).lent, l.backend.conn.buf = []) ∧
    (MarkedSafe (fun _ => True) a stream ↔ stream = []) ∧
    (MarkedSafe Steady a stream ↔ stream = [] ∨ a.Whole stream) ∧
    ∀ parseUri r b head inbound client, isWebsocketUpgradeRequest head.headers = false →
      Replayed parseUri r b head inbound client →
      ∃ (tried : Attempt) (s' : ExchangeState), tried.run ⟨inbound,b,client⟩ = (.error .noResponse,s') :=
  ⟨lentEmpty events,anySafe a stream,steadySafe a stream,fun _ _ _ _ _ _ => replayedMarked⟩

def cutStatus : Bytes := ascii "HTTP/1.1 2"
def getHead : RequestHead := ⟨.get,rootUri,.http11,⟨[(.host,.ofAscii "a")]⟩⟩

theorem cutStatusReplayed : (getText.run (takenState ⟨cutStatus,[]⟩)).1 = .error .noResponse ∧
    (getText.run (takenState ⟨cutStatus,[]⟩)).2.backend.conn = ⟨cutStatus,⟨[],[]⟩⟩ ∧
    (reverseProxyRequest onlyRoot plainProxy ⟨some (takenState ⟨cutStatus,[]⟩).backend,answerOk.fresh⟩ getHead unused
      ⟨[],[],0⟩).result = .ok (outcome true true 200) := by
  refine ⟨?_,?_,?_⟩ <;> decide +kernel

end ZeroServe.Proxy
