import ZeroServe.ResponseStream

/-! When a backend connection that is reported as reusable stands exactly behind the response it gave: the final head
of the stream with the body its fields announce, or none after a HEAD request. -/
namespace ZeroServe.Proxy
open ByteText ByteSource ChunkCoding H1

def responseBodyFor (method : Method) (head : ResponseHead) : Body :=
  if method = .head then .none else responseBodyFromHeaders head

def listsClose (headers : HeaderMap) : Bool :=
  (headers.getAll .connection).any
    (fun v => (listParts v.bytes).any (eqIgnoreAsciiCase · (ascii "close")))

def EndsClean (method : Method) (stream rest : Bytes) : Prop :=
  ∃ raw after head, FinalHead stream raw after ∧ parseResponseHead raw = .ok head ∧
    head.status.code ≠ 101 ∧ head.version = .http11 ∧
    listsClose head.headers = false ∧
    (responseBodyFor method head).isEof = false ∧
    ∃ payload, Delimits (responseBodyFor method head) after payload rest

def SentInFull (head : RequestHead) (sendBody : Bool) (inbound : Inbound) (before after : Sink) :
    Prop :=
  ∃ pieces left, after.written = before.written ++ (encodeRequestHead head ++
      if sendBody then wireBody inbound.body.isChunked pieces else []) ∧
    (sendBody = true → Delimits inbound.body inbound.reader.unread pieces.flatten left)

def takenRaw (fast : Bool) (raw : Bytes) : Option Nat :=
  if fast then
    match rawFixedResponse raw with
    | .ok (some ⟨_,_,_,.fixed n⟩) => some n
    | _ => none
  else none

/- The condition on the response. A head taken raw must delimit as many bytes as the
scanner's length; otherwise the body must be taken as present exactly when it is. -/
def ReuseCondition (fast headOnly : Bool) (method : Method) (stream : Bytes) : Prop :=
  ∃ raw after head, FinalHead stream raw after ∧ parseResponseHead raw = .ok head ∧
    head.status.code ≠ 101 ∧
    listsClose head.headers = false ∧
    match takenRaw fast raw with
    | some n => method ≠ .head ∧ (responseBodyFromHeaders head).isEof = false ∧
        ∃ payload, Delimits (responseBodyFromHeaders head) after payload (after.drop n)
    | none => responseBodyFromHeaders head = .none ∨ (headOnly = decide (method = .head) ∧
        (method = .head ∨ (responseBodyFromHeaders head).isEof = false))

theorem responseBodyKinds (head : ResponseHead) :
    responseBodyFromHeaders head = .none ∨ responseBodyFromHeaders head = newChunked ∨
      (∃ n, n ≠ 0 ∧ responseBodyFromHeaders head = .fixed n) ∨ responseBodyFromHeaders head = .eof false := by
  unfold responseBodyFromHeaders
  split
  · exact Or.inl rfl
  · split
    · exact Or.inr (Or.inl rfl)
    · split
      · rename_i len _
        split
        · exact Or.inl rfl
        · rename_i some
          exact Or.inr (Or.inr (Or.inl ⟨len,some,rfl⟩))
      · exact Or.inr (Or.inr (Or.inr rfl))

theorem delimitsNothing {head s payload} (h : Delimits (responseBodyFromHeaders head) s payload s)
    (bounded : (responseBodyFromHeaders head).isEof = false) : responseBodyFromHeaders head = .none := by
  rcases responseBodyKinds head with none | chunked | ⟨n,some,fixed⟩ | eof
  · exact none
  · rw [chunked] at h
    have shorter := codedShorter h
    omega
  · rw [fixed] at h
    have empty : payload = [] := by
      have := congrArg List.length h.1
      rw [List.length_append] at this
      exact List.length_eq_zero_iff.mp (by omega)
    rw [← h.2,empty] at some
    exact absurd rfl some
  · rw [eof] at bounded
    cases bounded

theorem EndsClean.unique {method stream rest rest'} (h : EndsClean method stream rest)
    (h' : EndsClean method stream rest') : rest = rest' := by
  obtain ⟨raw,after,head,final,parsed,_,_,_,_,p,delimited⟩ := h
  obtain ⟨raw',after',head',final',parsed',_,_,_,_,p',delimited'⟩ := h'
  obtain ⟨rfl,rfl⟩ := finalHeadUnique final final'
  cases parsed.symm.trans parsed'
  exact (delimitsUnique delimited delimited').2

section
variable {method : Method} {headOnly fast : Bool} {stream raw after rest : Bytes}

theorem cleanAt {head} (final : FinalHead stream raw after) (parsed : parseResponseHead raw = .ok head) :
    EndsClean method stream rest ↔ head.status.code ≠ 101 ∧ head.version = .http11 ∧
      listsClose head.headers = false ∧ (responseBodyFor method head).isEof = false ∧
      ∃ payload, Delimits (responseBodyFor method head) after payload rest := by
  constructor
  · rintro ⟨raw',after',head',final',parsed',clean⟩
    obtain ⟨rfl,rfl⟩ := finalHeadUnique final final'
    cases parsed.symm.trans parsed'
    exact clean
  · exact fun clean => ⟨raw,after,head,final,parsed,clean⟩

theorem conditionAt {head} (final : FinalHead stream raw after) (parsed : parseResponseHead raw = .ok head) :
    ReuseCondition fast headOnly method stream ↔ head.status.code ≠ 101 ∧ listsClose head.headers = false ∧
      match takenRaw fast raw with
      | some n => method ≠ .head ∧ (responseBodyFromHeaders head).isEof = false ∧
          ∃ payload, Delimits (responseBodyFromHeaders head) after payload (after.drop n)
      | none => responseBodyFromHeaders head = .none ∨ (headOnly = decide (method = .head) ∧
          (method = .head ∨ (responseBodyFromHeaders head).isEof = false)) := by
  constructor
  · rintro ⟨raw',after',head',final',parsed',holds⟩
    obtain ⟨rfl,rfl⟩ := finalHeadUnique final final'
    cases parsed.symm.trans parsed'
    exact holds
  · exact fun holds => ⟨raw,after,head,final,parsed,holds⟩

theorem parsedClean {head} (final : FinalHead stream raw after) (parsed : parseResponseHead raw = .ok head)
    (slow : takenRaw fast raw = none) (version : head.version = .http11) (consumed : if headOnly then rest = after
      else ∃ d, Delimits (responseBodyFromHeaders head) after d rest)
    (bounded : method = .head → (responseBodyFromHeaders head).isEof = false) :
    EndsClean method stream rest ↔ ReuseCondition fast headOnly method stream := by
  rw [cleanAt final parsed,conditionAt final parsed,slow]
  simp only [version,true_and]
  refine and_congr_right (fun _ => and_congr_right (fun _ => ?_))
  have absent : responseBodyFromHeaders head = .none → ∀ d rest,
      Delimits (responseBodyFromHeaders head) after d rest → d = [] ∧ after = rest := by
    intro none d rest h
    rw [none] at h
    exact h
  by_cases isHead : method = .head
  · simp only [responseBodyFor,isHead,if_true,decide_true]
    constructor
    · rintro ⟨_,p,rfl,same⟩
      cases headOnly with
      | true => exact Or.inr ⟨rfl,Or.inl trivial⟩
      | false =>
        obtain ⟨d,read⟩ := consumed
        rw [← same] at read
        exact Or.inl (delimitsNothing read (bounded isHead))
    · intro holds
      refine ⟨rfl,[],rfl,?_⟩
      cases headOnly with
      | true => exact consumed.symm
      | false =>
        obtain ⟨d,read⟩ := consumed
        rcases holds with none | ⟨wrong,_⟩
        · exact (absent none d rest read).2
        · cases wrong
  · simp only [responseBodyFor,isHead,if_false,decide_false,false_or]
    cases headOnly with
    | true =>
      have same := consumed
      subst same
      simp only [Bool.true_eq_false,false_and,or_false]
      constructor
      · rintro ⟨limited,p,delimited⟩
        exact delimitsNothing delimited limited
      · intro none
        rw [none]
        exact ⟨rfl,[],rfl,rfl⟩
    | false =>
      have read : ∃ d, Delimits (responseBodyFromHeaders head) after d rest := consumed
      simp only [true_and,read,and_true]
      constructor
      · exact Or.inr
      · rintro (none | limited)
        · rw [none]; rfl
        · exact limited

theorem parsedSlow {r} (as : ReadAs fast raw (.parsed r)) : takenRaw fast raw = none := by
  unfold takenRaw
  split
  · rename_i quick
    rw [as.2 quick]
  · rfl

theorem takenAccepted {r} (as : ReadAs fast raw (.rawFixed r)) :
    ∃ n, n ≠ 0 ∧ r.body = .fixed n ∧ takenRaw fast raw = some n := by
  obtain ⟨quick,accepted⟩ := as
  obtain ⟨a⟩ := rawFixedAccepted accepted
  have body := congrArg RawFixedResponse.body a.result
  refine ⟨a.length,a.positive,body,?_⟩
  generalize a.length = n at body ⊢
  obtain ⟨status,canReuse,head,_⟩ := r
  cases body
  rw [takenRaw,if_pos quick,accepted]

theorem rawClean {r} (final : FinalHead stream raw after) (as : ReadAs fast raw (.rawFixed r))
    (consumed : ∃ d, Delimits r.body after d rest) :
    EndsClean method stream rest ↔ ReuseCondition fast headOnly method stream := by
  obtain ⟨a⟩ := rawFixedAccepted as.2
  obtain ⟨n,positive,body,taken⟩ := takenAccepted as
  cases parsed : parseResponseHead raw with
  | error e =>
    refine iff_of_false ?_ ?_
    all_goals
      rintro ⟨raw',_,head,final',parsed',_⟩
      obtain ⟨rfl,-⟩ := finalHeadUnique final final'
      rw [parsed] at parsed'
      cases parsed'
  | ok head =>
    obtain ⟨_,_,status,version,_⟩ := (a.parses (finalHeadFull final)).mp parsed
    obtain ⟨d,read⟩ := consumed
    rw [body] at read
    have cut : rest = after.drop n := by rw [read.1,← read.2,List.drop_left]
    rw [cleanAt final parsed,conditionAt final parsed,taken]
    simp only [version,true_and]
    refine and_congr_right (fun _ => and_congr_right (fun _ => ?_))
    by_cases isHead : method = .head
    · simp only [responseBodyFor,isHead,if_true,ne_eq,not_true_eq_false,false_and,iff_false]
      rintro ⟨_,p,_,same⟩
      have lengths := congrArg List.length (read.1.symm.trans same)
      rw [List.length_append,read.2] at lengths
      omega
    · simp only [responseBodyFor,isHead,if_false,ne_eq,not_false_eq_true,true_and,cut]

end

theorem relayRawConsumed {raw s s' out} (h : relayRaw raw s = (.ok out,s')) :
    ∃ d, Delimits raw.body s.backend.conn.unread d s'.backend.conn.unread := by
  unfold relayRaw at h
  split at h
  · cases h
  · rename_i pieces b1 conn read
    split at h <;> cases h
    exact ⟨_,readAllSpec read⟩

theorem replyHeadBody {x bodyHint length status} {headers}
    (sends : (replyHead x bodyHint length status headers).sendBody = true) : x.headOnly = false := by
  unfold replyHead at sends
  dsimp only at sends
  split at sends
  · rename_i body
    unfold shouldSendProxyBodyRaw at body
    split at body
    · cases body
    · rename_i withBody
      exact Bool.eq_false_iff.mpr withBody
  · split at sends <;> cases sends

theorem relayContinueConsumed {x fullySent canReuse status} {body s s' out}
    (h : relayContinue x fullySent canReuse status body s = (.ok out,s')) :
    Consumed x.headOnly body s.backend.conn s'.backend.conn := by
  unfold relayContinue at h
  split at h
  · cases h
  · rename_i conn drained
    have same : s'.backend.conn = conn := by
      cases h
      cases fullySent <;> rfl
    rw [Consumed,same]
    split at drained
    · rename_i headOnly
      cases drained
      rw [if_pos headOnly]
    · rename_i withBody
      rw [if_neg withBody]
      exact drainProxyOk drained

theorem relayParsedConsumed {x fullySent resp s s' out} (h : relayParsed x fullySent resp s = (.ok out,s'))
    (reused : out.reuseBackend = true) : Consumed x.headOnly resp.body s.backend.conn s'.backend.conn := by
  unfold relayParsed at h
  dsimp only at h
  split at h
  · rw [relayUpgradeReuse h] at reused
    cases reused
  · split at h
    · exact relayContinueConsumed h
    · split at h
      · cases h
      · rename_i conn client relayed
        cases h
        exact relayReplyConsumed replyHeadBody relayed

theorem relaySimpleOut (resp : Response) (s : ExchangeState) : (relaySimple resp s).2.backend.out = s.backend.out := by
  unfold relaySimple
  dsimp only
  split
  · rfl
  · split <;> split <;> rfl

theorem relaySimpleConsumed {resp s s' out} (h : relaySimple resp s = (.ok out,s')) :
    out.reuseBackend = shouldReuseProxyConnection resp.head.version resp.head.headers ∧
      ∃ d, Delimits resp.body s.backend.conn.unread d s'.backend.conn.unread := by
  unfold relaySimple at h
  dsimp only at h
  split at h
  · cases h
  · rename_i client wrote
    cases sends : (simpleReplyHead resp).sendBody with
    | true =>
      simp only [sends,if_true] at h
      cases forwarded : forwardProxyBody resp.body s.backend.conn client with
      | mk done r =>
        rw [forwarded] at h
        cases done <;> cases h
        obtain ⟨pieces,delimited,_⟩ := forwardProxyBodySpec forwarded
        exact ⟨rfl,_,delimited⟩
    | false =>
      simp only [sends,Bool.false_eq_true,if_false] at h
      cases drained : drainProxyPayload resp.body s.backend.conn with
      | mk done conn =>
        rw [drained] at h
        cases done <;> cases h
        exact ⟨rfl,drainProxyOk drained⟩

theorem reusedVersion {version headers} (h : shouldReuseProxyConnection version headers = true) :
    version = .http11 := by
  simp only [shouldReuseProxyConnection,Bool.and_eq_true,beq_iff_eq] at h
  exact h.1

def pickedEarly (x : Exchange) (head : RequestHead) (inbound : Inbound) (backend : Backend) : Bool :=
  match sendRequest x.sendRequestBody x.limit x.watch head inbound backend with
  | (.ok (.completed (some _)),_) => true
  | _ => false

theorem sendRequestFull {sendBody watch limit head inbound backend u pending}
    (h : sendRequest sendBody limit watch head inbound backend = (.ok (.completed pending),u)) :
    SentInFull head sendBody inbound backend.out u.backend.out := by
  cases sendBody with
  | true =>
    obtain ⟨pieces,b1,c1,reads,last,written⟩ := sendRequestCompleted h
    refine ⟨pieces,u.source.reader.unread,written,fun _ => ?_⟩
    exact readsEnd reads last
  | false =>
    refine ⟨[],[],?_,fun sends => by cases sends⟩
    unfold sendRequest sendMessage at h
    split at h
    · cases h
    · rename_i out wrote
      cases h
      simpa [startUpload] using writeAllOk wrote

theorem exchangeReuse {x head s s' out} (h : proxyOverConnection x head s = (.ok out,s'))
    (reused : out.reuseBackend = true) : SentInFull head x.sendRequestBody s.inbound s.backend.out s'.backend.out ∧
      (EndsClean head.method s.backend.conn.unread s'.backend.conn.unread ↔
        ReuseCondition (canUseRawFixedProxyResponse x.rules x.isWsRequest x.headOnly &&
          ! pickedEarly x head s.inbound s.backend) x.headOnly head.method s.backend.conn.unread) := by
  obtain ⟨pending,u,sent,relayed⟩ := proxyOverConnectionReuse h reused
  have early : pickedEarly x head s.inbound s.backend = pending.isSome := by
    unfold pickedEarly
    rw [sent]
    cases pending <;> rfl
  rw [early,Option.not_isSome]
  constructor
  · have same := relayResponseOut x true pending {s with inbound := u.source,backend := u.backend}
    rw [relayed] at same
    rw [same]
    exact sendRequestFull sent
  · unfold relayResponse at relayed
    split at relayed
    · cases relayed
    · rename_i raw conn read
      obtain ⟨text,final,as⟩ := readResponseAt (sendRequestWatched (watchedWatches _) (Or.inr ⟨pending,rfl⟩) (Skips.refl _) sent) read
      exact rawClean final as (relayRawConsumed relayed)
    · rename_i r conn read
      obtain ⟨text,final,as⟩ := readResponseAt (sendRequestWatched (watchedWatches _) (Or.inr ⟨pending,rfl⟩) (Skips.refl _) sent) read
      obtain ⟨parsed,body⟩ := parsedResponse as.1
      obtain ⟨_,version,bounded⟩ := relayParsedReuse relayed reused
      have consumed := relayParsedConsumed relayed reused
      rw [body] at bounded consumed
      exact parsedClean final parsed (parsedSlow as) (reusedVersion version) consumed
        (fun _ => bounded)

theorem simpleReuse {requestHead s s' out} (h : proxySimpleOverConnection requestHead s = (.ok out,s'))
    (reused : out.reuseBackend = true) : s'.backend.out.written = s.backend.out.written ++ requestHead ∧
      (EndsClean .get s.backend.conn.unread s'.backend.conn.unread ↔
        ReuseCondition true false .get s.backend.conn.unread) := by
  unfold proxySimpleOverConnection at h
  split at h
  · cases h
  · rename_i sink wrote
    have written := writeAllOk wrote
    dsimp only at h
    split at h
    · rename_i raw conn read
      obtain ⟨text,final,as⟩ := nextFinalFastAt read
      have same := relayRawOut raw (withConn {s with backend := {s.backend with out := sink}} conn)
      rw [h] at same
      exact ⟨(congrArg Sink.written same).trans written, rawClean final as (relayRawConsumed h)⟩
    · rename_i r conn read
      obtain ⟨text,final,as⟩ := nextFinalFastAt read
      obtain ⟨parsed,body⟩ := parsedResponse as.1
      obtain ⟨version,consumed⟩ := relaySimpleConsumed h
      rw [body] at consumed
      refine ⟨?_,parsedClean final parsed (parsedSlow as)
        (reusedVersion (version.symm.trans reused)) consumed (fun isHead => by cases isHead)⟩
      have same := relaySimpleOut r (withConn {s with backend := {s.backend with out := sink}} conn)
      rw [h] at same
      exact (congrArg Sink.written same).trans written
    · cases h

end ZeroServe.Proxy
