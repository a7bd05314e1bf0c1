import ZeroServe.Compress
import ZeroServe.EncodedWire
import ZeroServe.NamedPasses

/-! Compression of one and the same proxied response over HTTP/1.1 and over HTTP/2, told by the
Content-Encoding the client gets. -/
namespace ZeroServe.Proxy
open ByteText ByteSource ChunkCoding H1 WireMessage Encode

def replyLength (resp : Response) : Option HeaderValue :=
  if hint resp.body = .fixed then (stripHopHeaders false resp.head.headers).get .contentLength else none

def relayedHead (x : Exchange) (resp : Response) (closing : Bool) : ReplyHead :=
  let headers := (prepareProxyResponse x.rules resp.head.status.code (responseHeadersH2 x resp)).headers
  replyHead x (hint resp.body) (replyLength resp) resp.head.status.code
    (if closing then headers.insert .connection (.ofAscii "close") else headers)

def toldToClose (x : Exchange) (fullySent : Bool) : Bool := x.sendRequestBody && ! fullySent && x.linger.isSome

/- A response that may be compressed: not coded yet, free to be transformed, matched by the
configuration, with a coding the client accepts, and not known to be short. -/
structure Eligible (sort : (α : Type) → (α → α → Ordering) → List α → List α) (n : Negotiation) (status : Nat)
    (headers : HeaderMap) : Prop where
  uncoded : ∀ v ∈ headers.get .contentEncoding, v.bytes = []
  transformable : find (ascii "no-transform") (((headers.get cacheControl).bind HeaderValue.toStr).getD []) = none
  matched : n.config.matcher.matches status headers = true
  accepted : ∃ name ∈ acceptedEncodings sort n.acceptEncoding n.secWebsocketKey n.config.prefer,
    ∃ coding, Coding.ofName name = some coding ∧ n.config.encoders coding ≠ none
  long : ∀ length ∈ plainLength headers, n.config.minLength < length

section
variable {sort : (α : Type) → (α → α → Ordering) → List α → List α} {codec : EncoderSpec → Codec} {n : Negotiation}

theorem negotiateIff : (n.config.negotiate sort n.acceptEncoding n.secWebsocketKey).isSome = true ↔
    ∃ name ∈ acceptedEncodings sort n.acceptEncoding n.secWebsocketKey n.config.prefer,
      ∃ coding, Coding.ofName name = some coding ∧ n.config.encoders coding ≠ none := by
  rw [EncodeConfig.negotiate,List.findSome?_isSome_iff]
  refine exists_congr fun name => and_congr_right fun _ => ?_
  cases Coding.ofName name with
  | none => simp
  | some coding =>
    simp [Option.isSome_iff_ne_none]

theorem anyFalse {α : Type} {o : Option α} {p : α → Bool} : ¬ o.any p = true ↔ ∀ a ∈ o, p a = false := by
  cases o <;> simp

theorem eligibleIff (status : Nat) (headers : HeaderMap) :
    (n.decide sort status headers (plainLength headers)).isSome = true ↔ Eligible sort n status headers := by
  have accepts : (n.config.negotiate sort n.acceptEncoding n.secWebsocketKey).isSome = true ↔ _ := negotiateIff
  unfold Negotiation.decide encodeAllowed
  constructor
  · intro chosen
    split at chosen
    · cases chosen
    · rename_i uncoded
      split at chosen
      · cases chosen
      · rename_i allowed
        split at chosen
        · cases chosen
        · rename_i matched
          split at chosen
          · cases chosen
          · rename_i coding found
            split at chosen
            · cases chosen
            · rename_i long
              refine ⟨?_,?_,by simpa using matched,accepts.mp (by rw [found]; rfl),?_⟩
              · simpa using anyFalse.mp uncoded
              · simpa using allowed
              · simpa using anyFalse.mp long
  · intro eligible
    have uncoded := eligible.uncoded
    have allowed := eligible.transformable
    have long := eligible.long
    rw [if_neg (anyFalse.mpr (by simpa using uncoded)),if_neg (by simpa using allowed),
      if_neg (by simp [eligible.matched])]
    obtain ⟨coding,found⟩ := Option.isSome_iff_exists.mp (accepts.mpr eligible.accepted)
    rw [found]
    dsimp only
    rw [if_neg (anyFalse.mpr (by simpa using long))]
    rfl

section
variable {x : Exchange} (unhooked : x.rules.hooks = none)
include unhooked

theorem preparedPlain (status : Nat) (headers : HeaderMap) : prepareProxyResponse x.rules status headers =
    ⟨status,applyMetadataResponseHeaders x.rules.metadata (prependEarly x.rules.early headers),false⟩ := by
  rw [prepareProxyResponse,unhooked]

theorem preparedNamewise (status : Nat) {name a b} (same : a.getAll name = b.getAll name) :
    (prepareProxyResponse x.rules status a).headers.getAll name =
      (prepareProxyResponse x.rules status b).headers.getAll name := by
  rw [preparedPlain unhooked,preparedPlain unhooked]
  exact namewiseMetadata _ name _ _ (namewiseEarly _ name a b same)

variable (fullySent : Bool)

omit unhooked in
theorem settledHeaders (headers : HeaderMap) (inbound : Inbound) :
    (settleUpload x fullySent headers inbound).2.1 =
      if toldToClose x fullySent then headers.insert .connection (.ofAscii "close") else headers := by
  unfold settleUpload toldToClose lingerDrain
  cases x.sendRequestBody <;> cases fullySent <;> cases x.linger <;> rfl

theorem headsSame (resp : Response) (fullySent : Bool) (inbound : Inbound) (name : HeaderName) :
    let headers := (prepareProxyResponse x.rules resp.head.status.code (applyProxyResponseHeaders (hint resp.body)
        (shouldSendProxyBodyRaw resp.head.status.code (hint resp.body) x.headOnly)
        (stripHopHeaders false resp.head.headers))).headers
    (replyHead x (hint resp.body) (replyLength resp) resp.head.status.code
        (settleUpload x fullySent headers inbound).2.1).headers.getAll name =
      (relayedHead x resp (toldToClose x fullySent)).headers.getAll name := by
  dsimp only
  rw [settledHeaders]
  refine replyHeadSame x _ _ _ fun other => ?_
  have before : (applyProxyResponseHeaders (hint resp.body)
        (shouldSendProxyBodyRaw resp.head.status.code (hint resp.body) x.headOnly)
        (stripHopHeaders false resp.head.headers)).getAll name = (responseHeadersH2 x resp).getAll name :=
    (FieldMap.getAllRemoveOther _ other).symm
  have after := preparedNamewise unhooked resp.head.status.code before
  split
  · exact namewiseInsert _ _ name _ _ after
  · exact after

theorem relayedOverH1 {resp} (s : ExchangeState)
    (plain : (x.isWsRequest && resp.head.status.code == 101) = false) : ∃ head : ReplyHead,
    (relayParsed x fullySent resp s).2.client = (relayReply x head resp.body s.backend.conn s.client).2.2 ∧
    head.status = resp.head.status.code ∧ head.sendBody = (relayedHead x resp false).sendBody ∧
    ∀ name, head.headers.getAll name = (relayedHead x resp (toldToClose x fullySent)).headers.getAll name := by
  have fields := headsSame unhooked resp fullySent s.inbound
  have prepared := preparedPlain unhooked resp.head.status.code
  refine ⟨_,?_,?_,?_,fields⟩
  · unfold relayParsed
    simp only [plain,Bool.false_eq_true,if_false,prepared]
    split
    · rename_i failed
      exact (congrArg (·.2.2) failed).symm
    · rename_i done
      exact (congrArg (·.2.2) done).symm
  · unfold replyHead
    dsimp only
    split
    · rfl
    · split <;> rfl
  · unfold relayedHead replyHead
    dsimp only
    split
    · rfl
    · split <;> rfl

theorem relayedOverH2 (resp : Response) (stream : RecvStream) (backend : Backend) : ∃ reply,
    (relayParsedH2 x fullySent resp stream backend ⟨none,none⟩).response = some reply ∧
    reply.headers.getAll .contentEncoding =
      match chosenEncoder x (relayedHead x resp false) with
      | some (enc,_) => (enc.applyEncodingHeaders (relayedHead x resp false).headers).getAll .contentEncoding
      | none => (relayedHead x resp false).headers.getAll .contentEncoding := by
  have prepared := preparedPlain unhooked resp.head.status.code
  have head : replyHead x (hint resp.body) (if hint resp.body = .fixed then
      (stripHopHeaders false resp.head.headers).get .contentLength else none) resp.head.status.code
      (applyMetadataResponseHeaders x.rules.metadata (prependEarly x.rules.early (responseHeadersH2 x resp))) =
        relayedHead x resp false := by
    rw [relayedHead,prepared]
    rfl
  unfold relayParsedH2
  simp only [prepared,Bool.false_eq_true,if_false,head,SendStream.sendResponse,SendStream.spend]
  have kept := relayBodyH2Sent x (relayedHead x resp false) (chosenEncoder x (relayedHead x resp false)) resp.body
    backend.conn
  have coded (headers : HeaderMap) : (headers.remove .transferEncoding).getAll .contentEncoding =
      headers.getAll .contentEncoding := FieldMap.getAllRemoveOther _ otherNames.1
  split
  all_goals
    rename_i w sent
    obtain ⟨reply,there,headers⟩ := Option.map_eq_some_iff.mp ((congrArg (sentHeaders ·.2.2) sent).symm.trans (kept _))
    refine ⟨reply,there,?_⟩
    rw [headers,coded]
    cases chosenEncoder x (relayedHead x resp false) <;> rfl

end

theorem chosenIs {x : Exchange} (encoding : x.rules.encode = some (n.state sort codec)) {head like : ReplyHead}
    (same : ∀ name, head.headers.getAll name = like.headers.getAll name) : chosenEncoder x head = if head.sendBody then
      (n.decide sort head.status like.headers (plainLength like.headers)).map fun chosen =>
        (encoderOf codec chosen,n.config.minLength) else none := by
  have length : plainLength head.headers = plainLength like.headers := by
    rw [plainLength,plainLength,getSame same]
  unfold chosenEncoder
  rw [encoding,length]
  cases head.sendBody with
  | false => rfl
  | true =>
    simp only [Option.bind_some,Negotiation.state,decideSame sort n same,Option.map_map]
    rfl

theorem decidedCoding {status} {headers length chosen} (decided : n.decide sort status headers length = some chosen) :
    n.config.negotiate sort n.acceptEncoding n.secWebsocketKey = some chosen := by
  unfold Negotiation.decide at decided
  split at decided
  · cases decided
  · split at decided
    · cases decided
    · split at decided
      · cases decided
      · split at decided
        · cases decided
        · rename_i found
          split at decided
          · cases decided
          · cases decided
            exact found

def codingsOverH1 (wire : Bytes) : List Bytes :=
  match readHead wire with
  | some (head,_) => valuesOf head.fields HeaderName.contentEncoding.text
  | none => []

def codingsSent (headers : HeaderMap) : List Bytes := (headers.getAll .contentEncoding).map fun v => trimAscii v.bytes

theorem codingsRead {w w' status} {headers} (sent : HeadSent w w' status headers) :
    ∃ wire, w'.written = w.written ++ wire ∧ codingsOverH1 wire = codingsSent headers := by
  obtain ⟨more,sent⟩ := sent
  refine ⟨_,sent,?_⟩
  rw [codingsOverH1,readReplyHead]
  exact wireValues headers .contentEncoding

theorem codingNew {status} {headers} (eligible : Eligible sort n status headers) (coding : Coding) :
    codingsSent headers ≠ [trimAscii coding.value.bytes] := by
  have named : trimAscii coding.value.bytes ≠ [] := by cases coding <;> decide +kernel
  intro same
  obtain ⟨v,only,text⟩ := List.map_eq_singleton_iff.mp same
  have blank := eligible.uncoded v (by rw [FieldMap.get,only]; rfl)
  rw [blank] at text
  exact named text.symm

def CompressedAlike (sort : (α : Type) → (α → α → Ordering) → List α → List α) (n : Negotiation) (x : Exchange)
    (resp : Response) (closing : Bool) (total : Nat) : Prop :=
  (relayedHead x resp false).sendBody = true →
    ((Eligible sort n resp.head.status.code (relayedHead x resp closing).headers ∧
        (hint resp.body = .stream → n.config.minLength < total)) ↔
      Eligible sort n resp.head.status.code (relayedHead x resp false).headers)

section
variable {x : Exchange} (unhooked : x.rules.hooks = none) (encoding : x.rules.encode = some (n.state sort codec))

theorem relayedSends (x : Exchange) (resp : Response) (closing : Bool) : (relayedHead x resp closing).sendBody =
      shouldSendProxyBodyRaw resp.head.status.code (hint resp.body) x.headOnly := by
  unfold relayedHead replyHead
  dsimp only
  split
  · rename_i sends
    exact sends.symm
  · rename_i quiet
    split <;> exact (Bool.eq_false_iff.mpr quiet).symm

theorem sendsPlain {x : Exchange} {status} {kind : StreamHint}
    (sends : shouldSendProxyBodyRaw status kind x.headOnly = true) : (x.isWsRequest && status == 101) = false := by
  by_contra upgrade
  simp only [Bool.not_eq_false,Bool.and_eq_true,beq_iff_eq] at upgrade
  have bare : rawStatusAllowsBody 101 = false := rfl
  simp [shouldSendProxyBodyRaw,upgrade.2,bare] at sends

theorem closingCodings (x : Exchange) (resp : Response) (closing : Bool) :
    (relayedHead x resp closing).headers.getAll .contentEncoding =
      (relayedHead x resp false).headers.getAll .contentEncoding := by
  refine replyHeadSame x _ _ _ fun _ => ?_
  cases closing with
  | false => rfl
  | true => exact FieldMap.getAllInsertOther _ _ otherNames.2.2

def decided (sort : (α : Type) → (α → α → Ordering) → List α → List α) (n : Negotiation) (x : Exchange)
    (resp : Response) (closing : Bool) : Option (Coding × EncoderSpec) :=
  n.decide sort resp.head.status.code (relayedHead x resp closing).headers
    (plainLength (relayedHead x resp closing).headers)

variable (fullySent : Bool)

include unhooked encoding in
theorem codingOverH1 {resp : Response} {s : ExchangeState} {pieces : List Bytes} {b' : Body}
    {c' : Conn} (whole : readAll resp.body s.backend.conn = (.ok pieces,b',c')) (sound : s.client.Sound)
    (sends : (relayedHead x resp false).sendBody = true) :
    ∃ wire, (relayParsed x fullySent resp s).2.client.written = s.client.written ++ wire ∧ codingsOverH1 wire =
        (decided sort n x resp (toldToClose x fullySent)).elim (codingsSent (relayedHead x resp false).headers)
          fun chosen => if hint resp.body = .stream ∧ pieces.flatten.length ≤ n.config.minLength then
            codingsSent (relayedHead x resp false).headers else [trimAscii chosen.1.value.bytes] := by
  have plain : (x.isWsRequest && resp.head.status.code == 101) = false := by
    rw [relayedSends] at sends
    exact sendsPlain sends
  obtain ⟨head,client,status,sends',fields⟩ := relayedOverH1 unhooked fullySent s plain
  have encodes : x.rules.encode.isSome = true := by
    rw [encoding]
    rfl
  obtain ⟨sent,there,coding⟩ : ∃ sent,
    HeadSent s.client (relayReply x head resp.body s.backend.conn s.client).2.2 head.status sent ∧ _ :=
    relayReplyHead encodes sound whole
  rw [← client] at there
  obtain ⟨wire,written,read⟩ := codingsRead there
  refine ⟨wire,written,read.trans ?_⟩
  have own : codingsSent head.headers = codingsSent (relayedHead x resp false).headers := by
    rw [codingsSent,fields,closingCodings]
    rfl
  rw [codingsSent,coding,chosenIs encoding fields,sends',sends,status]
  unfold decided
  cases n.decide sort resp.head.status.code (relayedHead x resp (toldToClose x fullySent)).headers
      (plainLength (relayedHead x resp (toldToClose x fullySent)).headers) with
  | none => exact own
  | some chosen =>
    simp only [if_true,Option.map_some,Option.elim_some,encoderOf]
    split
    · exact own
    · rw [encodedCoding]
      rfl

include unhooked encoding in
theorem codingOverH2 (resp : Response) (stream : RecvStream) (backend : Backend)
    (sends : (relayedHead x resp false).sendBody = true) : ∃ reply,
    (relayParsedH2 x fullySent resp stream backend ⟨none,none⟩).response = some reply ∧ codingsSent reply.headers =
      (decided sort n x resp false).elim (codingsSent (relayedHead x resp false).headers)
        fun chosen => [trimAscii chosen.1.value.bytes] := by
  obtain ⟨reply,there,coding⟩ := relayedOverH2 unhooked fullySent resp stream backend
  refine ⟨reply,there,?_⟩
  rw [codingsSent,coding,chosenIs encoding fun _ => rfl,sends]
  have status : (relayedHead x resp false).status = resp.head.status.code := by
    unfold relayedHead replyHead
    dsimp only
    split
    · rfl
    · split <;> rfl
  rw [status]
  unfold decided
  cases n.decide sort resp.head.status.code (relayedHead x resp false).headers
      (plainLength (relayedHead x resp false).headers) with
  | none => rfl
  | some chosen =>
    simp only [if_true,Option.map_some,encoderOf,encodedCoding]
    rfl

/- The head of an accepted upgrade goes out without the framing passes. -/
include unhooked in
theorem upgradeHead {resp} {s} (sound : s.client.Sound)
    (upgrade : (x.isWsRequest && resp.head.status.code == 101) = true) : ∃ sent,
    HeadSent s.client (relayParsed x fullySent resp s).2.client resp.head.status.code sent ∧
      sent.getAll .contentEncoding = (relayedHead x resp false).headers.getAll .contentEncoding := by
  have prepared := preparedPlain unhooked resp.head.status.code
  refine ⟨(prepareProxyResponse x.rules resp.head.status.code (stripHopHeaders true resp.head.headers)).headers,?_,?_⟩
  · unfold relayParsed relayUpgrade
    dsimp only
    simp only [upgrade,if_true,prepared]
    obtain ⟨w1,wrote⟩ := soundHead sound resp.head.status.code
      (applyMetadataResponseHeaders x.rules.metadata
        (prependEarly x.rules.early (stripHopHeaders true resp.head.headers)))
    rw [wrote]
    refine headSentThen wrote ?_
    dsimp only
    split <;> exact .refl _
  · rw [relayedHead,replyHeadOther otherNames.1 otherNames.2.1]
    refine preparedNamewise unhooked _ ?_
    rw [responseHeadersH2,FieldMap.getAllRemoveOther _ otherNames.1,applyOther otherNames.1 otherNames.2.1]
    exact stripCoding true resp.head.headers

include unhooked encoding in
theorem bodilessCodings {resp : Response} {s : ExchangeState} {pieces : List Bytes} {b' : Body}
    {c' : Conn} (whole : readAll resp.body s.backend.conn = (.ok pieces,b',c')) (sound : s.client.Sound)
    (quiet : (relayedHead x resp false).sendBody = false) (stream : RecvStream) : ∃ wire reply,
    (relayParsed x fullySent resp s).2.client.written = s.client.written ++ wire ∧
    (relayParsedH2 x fullySent resp stream s.backend ⟨none,none⟩).response = some reply ∧
    codingsOverH1 wire = codingsSent reply.headers := by
  obtain ⟨reply,there,coding⟩ := relayedOverH2 unhooked fullySent resp stream s.backend
  rw [chosenIs encoding fun _ => rfl,quiet] at coding
  have theirs : codingsSent reply.headers = codingsSent (relayedHead x resp false).headers := by
    rw [codingsSent,coding]
    rfl
  suffices ∃ sent, HeadSent s.client (relayParsed x fullySent resp s).2.client resp.head.status.code sent ∧
      sent.getAll .contentEncoding = (relayedHead x resp false).headers.getAll .contentEncoding by
    obtain ⟨sent,ours,same⟩ := this
    obtain ⟨wire,written,read⟩ := codingsRead ours
    exact ⟨wire,reply,written,there,by rw [read,theirs,codingsSent,same]; rfl⟩
  cases upgrade : x.isWsRequest && resp.head.status.code == 101 with
  | true => exact upgradeHead unhooked fullySent sound upgrade
  | false =>
    obtain ⟨head,client,status,sends,fields⟩ := relayedOverH1 unhooked fullySent s upgrade
    have encodes : x.rules.encode.isSome = true := by
      rw [encoding]
      rfl
    obtain ⟨sent,ours,own⟩ : ∃ sent,
      HeadSent s.client (relayReply x head resp.body s.backend.conn s.client).2.2 head.status sent ∧ _ :=
      relayReplyHead encodes sound whole
    rw [← client,status] at ours
    rw [chosenIs encoding fields,sends,quiet] at own
    exact ⟨sent,ours,own.trans ((fields _).trans (closingCodings x resp _))⟩

end

theorem alikeCases {γ δ : Type} {first second : Option γ} (own : δ) (new : γ → δ) (kept : Prop) [Decidable kept]
    (fresh : first.isSome = true → ∀ c, own ≠ new c) (fresh' : second.isSome = true → ∀ c, own ≠ new c)
    (same : ∀ a ∈ first, ∀ b ∈ second, a = b) :
    first.elim own (fun c => if kept then own else new c) = second.elim own new ↔
      ((first.isSome = true ∧ ¬ kept) ↔ second.isSome = true) := by
  cases first with
  | none =>
    cases second with
    | none => simp
    | some b => simpa using fresh' rfl b
  | some a =>
    cases second with
    | none =>
      by_cases keeps : kept
      · simp [keeps]
      · simpa [keeps] using (fresh rfl a).symm
    | some b =>
      by_cases keeps : kept
      · simpa [keeps] using fresh rfl b
      · simp [keeps,same a rfl b rfl]

theorem compressedAlikeExact {x : Exchange} (unhooked : x.rules.hooks = none)
    (encoding : x.rules.encode = some (n.state sort codec)) (fullySent : Bool) {resp : Response} {s : ExchangeState}
    {pieces : List Bytes} {b' : Body} {c' : Conn} (whole : readAll resp.body s.backend.conn = (.ok pieces,b',c'))
    (sound : s.client.Sound) (stream : RecvStream) : ∃ wire reply,
    (relayParsed x fullySent resp s).2.client.written = s.client.written ++ wire ∧
    (relayParsedH2 x fullySent resp stream s.backend ⟨none,none⟩).response = some reply ∧
    (codingsOverH1 wire = codingsSent reply.headers ↔
      CompressedAlike sort n x resp (toldToClose x fullySent) pieces.flatten.length) := by
  cases sends : (relayedHead x resp false).sendBody with
  | false =>
    obtain ⟨wire,reply,first,second,same⟩ := bodilessCodings unhooked encoding fullySent whole sound sends stream
    exact ⟨wire,reply,first,second,iff_of_true same fun sends' => by rw [sends] at sends'; cases sends'⟩
  | true =>
    obtain ⟨wire,first,coding⟩ := codingOverH1 unhooked encoding fullySent whole sound sends
    obtain ⟨reply,second,coding'⟩ := codingOverH2 unhooked encoding fullySent resp stream s.backend sends
    refine ⟨wire,reply,first,second,?_⟩
    rw [coding,coding',CompressedAlike]
    have closing : (decided sort n x resp (toldToClose x fullySent)).isSome = true ↔ _ := eligibleIff _ _
    have open_ : (decided sort n x resp false).isSome = true ↔ _ := eligibleIff _ _
    have fresh (closing : Bool) (eligible : (decided sort n x resp closing).isSome = true) (coding : Coding) :
        codingsSent (relayedHead x resp false).headers ≠ [trimAscii coding.value.bytes] := by
      have own := codingNew ((eligibleIff _ _).mp eligible) coding
      rwa [codingsSent,closingCodings] at own
    have same : ∀ a ∈ decided sort n x resp (toldToClose x fullySent), ∀ b ∈ decided sort n x resp false, a = b :=
      fun a first b second => Option.some.inj ((decidedCoding first).symm.trans (decidedCoding second))
    rw [← closing,← open_]
    simp only [sends,forall_true_left]
    have alike := alikeCases (codingsSent (relayedHead x resp false).headers)
      (fun chosen : Coding × EncoderSpec => [trimAscii chosen.1.value.bytes])
      (hint resp.body = .stream ∧ pieces.flatten.length ≤ n.config.minLength)
      (fun eligible chosen => fresh _ eligible chosen.1) (fun eligible chosen => fresh _ eligible chosen.1) same
    simpa only [not_and,not_le] using alike

end

def gzipConfig (minLength : Nat) : EncodeConfig :=
  ⟨minLength,[ascii "gzip"],fun coding => if coding = .gzip then some (.gzip 5) else none,⟨[],[]⟩⟩

def gzipAccepted (minLength : Nat) : Negotiation := ⟨gzipConfig minLength,ascii "gzip",[]⟩

def plainCodec (_ : EncoderSpec) : Codec := ⟨true,fun _ data => some data,fun _ => some []⟩
def asListed (α : Type) (_ : α → α → Ordering) (l : List α) : List α := l

def gzipExchange (minLength : Nat) : Exchange :=
  ⟨false,false,false,none,false,⟨.empty,[],none,some ((gzipAccepted minLength).state asListed plainCodec)⟩,none,true⟩

theorem okIsStatus : 100 ≤ 200 ∧ 200 ≤ 999 := by decide

def streamedReply : Response :=
  ⟨⟨⟨200,okIsStatus⟩,[],.http11,⟨[(.transferEncoding,.ofAscii "chunked")]⟩⟩,newChunked⟩

def streamedState : ExchangeState :=
  ⟨⟨.none,⟨[],⟨[],[]⟩⟩⟩,⟨⟨ascii "5\r\nhello\r\n0\r\n\r\n",⟨[],[]⟩⟩,⟨[],[],0⟩,[],[]⟩,⟨[],[],0⟩⟩

theorem longReplyAlike : ∃ wire reply,
    (relayParsed (gzipExchange 1) true streamedReply streamedState).2.client.written = wire ∧
    (relayParsedH2 (gzipExchange 1) true streamedReply ⟨[],0⟩ streamedState.backend ⟨none,none⟩).response = some reply ∧
    codingsOverH1 wire = codingsSent reply.headers := by
  have whole : readAll streamedReply.body streamedState.backend.conn =
      (.ok [ascii "hello"],.chunked 0 false true true,⟨[],⟨[],[]⟩⟩) := by decide +kernel
  have encoding : (gzipExchange 1).rules.encode = some ((gzipAccepted 1).state asListed plainCodec) := rfl
  obtain ⟨wire,reply,written,sent,exact⟩ := compressedAlikeExact (x := gzipExchange 1) rfl encoding true whole
    (fun _ none => by cases none) ⟨[],0⟩
  refine ⟨wire,reply,written,sent,exact.mpr fun _ => ⟨fun both => both.1,fun eligible => ⟨eligible,fun _ => ?_⟩⟩⟩
  decide +kernel

theorem shortReplyDiffers :
    codingsOverH1 (relayParsed (gzipExchange 512) true streamedReply streamedState).2.client.written = [] ∧
    (relayParsedH2 (gzipExchange 512) true streamedReply ⟨[],0⟩ streamedState.backend ⟨none,none⟩).response.map
      (fun reply => codingsSent reply.headers) = some [ascii "gzip"] := by
  decide +kernel

end ZeroServe.Proxy
