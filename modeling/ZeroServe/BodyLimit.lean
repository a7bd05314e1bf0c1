import ZeroServe.ReverseProxyH2

/-! The limit on a request body, counted while it is sent to a backend that is quiet until then. A body within the
limit is sent whole; otherwise sending stops before the limit is passed. -/
namespace ZeroServe.Proxy
open ByteText ByteSource ChunkCoding H1

structure Silent (be : Backend) : Prop where
  empty : be.conn.buf = []
  waiting : ∀ answer ∈ be.readable, answer = false

section
variable {σ : Type} {next : σ → Option (Except HttpError Bytes) × σ}

theorem watchSilent (watch : Bool) {u : Upload σ} (quiet : Silent u.backend) :
    ∃ backend, watchBackend watch u = (.ok none,{u with backend}) ∧ Silent backend ∧ backend.out = u.backend.out := by
  unfold watchBackend
  split
  · have buffered : takeBufferedFinalResponse u.interimSeen u.backend.conn =
        (.ok none,u.interimSeen,u.backend.conn) := by
      have none : find (crlf ++ crlf) ([] : Bytes) = none := rfl
      simp [takeBufferedFinalResponse,takeBufferedLoop,tryNextResponse,quiet.empty,none, maxHeaderSize]
    have still : u.backend.readable.headD false = false := by
      cases answers : u.backend.readable with
      | nil => rfl
      | cons a rest => exact quiet.waiting a (by rw [answers]; exact List.mem_cons_self)
    simp only [pollEarlyBackendResponse,pollEarlyLoop,buffered,still,Bool.false_eq_true,if_false]
    exact ⟨_,rfl,⟨quiet.empty,fun a mem => quiet.waiting a (List.mem_of_mem_tail mem)⟩,rfl⟩
  · exact ⟨u.backend,rfl,quiet,rfl⟩

theorem writePieceDone (chunked : Bool) (data : Bytes) {w} (sound : w.Sound) :
    ∃ w', writePiece chunked data w = (true,w') ∧ w'.Sound ∧ w'.written = w.written ++ framePiece chunked data := by
  cases step : writePiece chunked data w with
  | mk ok w' =>
    obtain ⟨rfl,still⟩ := writePieceSound sound step
    exact ⟨w',rfl,still,writePieceOk step⟩

theorem uploadEndDone (chunked : Bool) {u : Upload σ} (sound : u.backend.out.Sound) :
    ∃ u', uploadEnd chunked u = (.ok (.completed u.pending),u') ∧
      u'.backend.out.written = u.backend.out.written ++ frameEnd chunked := by
  cases chunked with
  | false => exact ⟨u,rfl,by simp [frameEnd]⟩
  | true =>
    unfold uploadEnd writeChunkEnd
    cases step : writeAll lastChunk u.backend.out with
    | mk ok out =>
      obtain ⟨rfl,_⟩ := writeAllSound sound step
      exact ⟨_,rfl,writeAllOk step⟩

theorem forwardLoopLimited {m fuel} (watch chunked : Bool) {u : Upload σ} {pieces : List Bytes} {last : σ}
    (run : Pulls next u.source pieces last) (enough : pieces.length < fuel) (sound : u.backend.out.Sound)
    (quiet : Silent u.backend) (fresh : u.pending = none) (seen : u.bytesSeen ≤ m) :
    if u.bytesSeen + pieces.flatten.length ≤ m then
      ∃ u', forwardLoop next (some m) watch chunked fuel u = (.ok (.completed none),u') ∧
        u'.backend.out.written = u.backend.out.written ++ wireBody chunked pieces
    else
      ∃ u' sent, forwardLoop next (some m) watch chunked fuel u = (.error .tooLarge,u') ∧
        sent <+: pieces ∧ u.bytesSeen + sent.flatten.length ≤ m ∧
        u'.backend.out.written = u.backend.out.written ++ sent.flatMap (framePiece chunked) := by
  induction fuel generalizing u pieces with
  | zero => omega
  | succ fuel ih =>
    cases run with
    | done ended =>
      rw [if_pos (by simpa using seen)]
      unfold forwardLoop
      rw [ended]
      obtain ⟨u',done,written⟩ :=
        uploadEndDone chunked (u := {u with source := last}) sound
      refine ⟨u',?_,written⟩
      dsimp only
      rw [done,fresh]
    | @piece s data s1 later s' step tail =>
      unfold forwardLoop
      rw [step]
      dsimp only
      by_cases over_ : m < u.bytesSeen + data.length
      · rw [if_neg (by simp only [List.flatten_cons,List.length_append]; omega),
          addLimitedRequestBodyBytes,if_pos over_]
        exact ⟨_,[],rfl,List.nil_prefix,by simpa using seen,by simp⟩
      · rw [addLimitedRequestBodyBytes,if_neg over_]
        dsimp only
        obtain ⟨backend,watched,still,same⟩ := watchSilent watch
          (u := {u with source := s1,bytesSeen := u.bytesSeen + data.length}) quiet
        rw [watched]
        obtain ⟨out,wrote,fine,written⟩ :=
          writePieceDone chunked data (w := backend.out) (by rw [same]; exact sound)
        dsimp only
        rw [wrote]
        have rest := ih (u := ⟨s1,{backend with out},u.bytesSeen + data.length,u.interimSeen,u.pending⟩)
          tail (by simpa using enough) fine ⟨still.empty,still.waiting⟩ fresh (Nat.le_of_not_lt over_)
        simp only [List.flatten_cons,List.length_append,← Nat.add_assoc]
        simp only [same] at written
        split
        · rename_i within
          rw [if_pos within] at rest
          obtain ⟨u',done,all⟩ := rest
          refine ⟨u',done,?_⟩
          rw [all,written]
          simp [wireBody]
        · rename_i beyond
          rw [if_neg beyond] at rest
          obtain ⟨u',sent,stopped,part,bounded,all⟩ := rest
          refine ⟨u',data::sent,stopped,List.prefix_cons_inj data |>.mpr part,?_,?_⟩
          · simpa [Nat.add_assoc] using bounded
          · rw [all,written]
            simp

end

def Delivered (backend : Backend) (head : RequestHead) (chunked : Bool) (sent : Bytes)
    (used : Backend) : Prop :=
  ∃ (pieces : List Bytes) (tail : Bytes), pieces.flatten = sent ∧ (tail = [] ∨ tail = frameEnd chunked) ∧
    used.out.written = backend.out.written ++
      (encodeRequestHead head ++ (pieces.flatMap (framePiece chunked) ++ tail))

section
variable {σ : Type} {next : σ → Option (Except HttpError Bytes) × σ}

def SentWithin (m : Nat) (backend : Backend) (head : RequestHead) (chunked : Bool) (payload : Bytes)
    (r : Except SendError ForwardOutcome × Upload σ) : Prop :=
  if payload.length ≤ m then
    r.1 = .ok (.completed none) ∧ Delivered backend head chunked payload r.2.backend
  else
    r.1 = .error (.body .tooLarge) ∧ ∃ sent, sent <+: payload ∧ sent.length ≤ m ∧
      Delivered backend head chunked sent r.2.backend

theorem sendMessageWithin {m} {backend head chunked pieces source}
    {forward : σ → Backend → Except RequestBodyError ForwardOutcome × Upload σ} (sound : backend.out.Sound)
    (quiet : Silent backend) (body : ∀ be : Backend, be.out.Sound → Silent be →
      if pieces.flatten.length ≤ m then
        ∃ u' tail, forward source be = (.ok (.completed none),u') ∧ (tail = [] ∨ tail = frameEnd chunked) ∧
          u'.backend.out.written = be.out.written ++ (pieces.flatMap (framePiece chunked) ++ tail)
      else
        ∃ u' sent, forward source be = (.error .tooLarge,u') ∧ sent <+: pieces ∧ sent.flatten.length ≤ m ∧
          u'.backend.out.written = be.out.written ++ sent.flatMap (framePiece chunked)) :
    SentWithin m backend head chunked pieces.flatten (sendMessage true head forward source backend) := by
  unfold sendMessage
  cases step : writeAll (encodeRequestHead head) backend.out with
  | mk ok out =>
    obtain ⟨rfl,still⟩ := writeAllSound sound step
    have wrote := writeAllOk step
    have sent := body {backend with out} still ⟨quiet.empty,quiet.waiting⟩
    dsimp only
    rw [if_pos rfl]
    unfold SentWithin
    split
    · rename_i within
      rw [if_pos within] at sent
      obtain ⟨u',tail,done,ended,written⟩ := sent
      rw [done]
      refine ⟨rfl,pieces,tail,rfl,ended,?_⟩
      rw [written,wrote,List.append_assoc]
    · rename_i beyond
      rw [if_neg beyond] at sent
      obtain ⟨u',part,stopped,front,small,written⟩ := sent
      rw [stopped]
      refine ⟨rfl,part.flatten,?_,small,part,[],rfl,.inl rfl,?_⟩
      · obtain ⟨rest,rfl⟩ := front
        rw [List.flatten_append]
        exact List.prefix_append _ _
      · rw [written,wrote,List.append_nil,List.append_assoc]

theorem loopWithin {m fuel} {watch chunked source last pieces} (run : Pulls next source pieces last)
    (enough : pieces.length < fuel) {be} (sound : be.out.Sound) (quiet : Silent be) : if pieces.flatten.length ≤ m then
      ∃ u' tail, forwardLoop next (some m) watch chunked fuel (startUpload source be) =
          (.ok (.completed none),u') ∧ (tail = [] ∨ tail = frameEnd chunked) ∧
        u'.backend.out.written = be.out.written ++ (pieces.flatMap (framePiece chunked) ++ tail)
    else
      ∃ u' sent, forwardLoop next (some m) watch chunked fuel (startUpload source be) =
          (.error .tooLarge,u') ∧ sent <+: pieces ∧ sent.flatten.length ≤ m ∧
        u'.backend.out.written = be.out.written ++ sent.flatMap (framePiece chunked) := by
  have step := forwardLoopLimited (m := m) watch chunked (u := startUpload source be) run enough sound quiet rfl (Nat.zero_le m)
  simp only [startUpload,Nat.zero_add] at step ⊢
  split
  · rename_i within
    rw [if_pos within] at step
    obtain ⟨u',done,written⟩ := step
    exact ⟨u',frameEnd chunked,done,.inr rfl,written⟩
  · rename_i beyond
    rw [if_neg beyond] at step
    exact step

end

theorem readAllPulls {fuel} {seen pieces i b' c'} (h : readAllLoop fuel seen i.body i.reader = (.ok pieces,b',c')) :
    ∃ later, pieces = seen ++ later ∧ Pulls Inbound.next i later ⟨b',c'⟩ ∧ later.length ≤ i.reader.unread.length := by
  induction fuel generalizing seen i with
  | zero => cases h
  | succ fuel ih =>
    unfold readAllLoop at h
    cases step : nextData i.body i.reader with
    | mk r rest =>
      obtain ⟨b1,c1⟩ := rest
      have taken : i.next = (r,⟨b1,c1⟩) := by
        unfold Inbound.next
        rw [step]
      rw [step] at h
      cases r with
      | none =>
        cases h
        exact ⟨[],by simp,.done taken,Nat.zero_le _⟩
      | some r =>
        cases r with
        | error e => cases h
        | ok data =>
          obtain ⟨later,same,run,few⟩ := ih (i := ⟨b1,c1⟩) h
          have less := nextDataShrinks step
          refine ⟨data::later,by simp [same],.piece taken run,?_⟩
          simp only [List.length_cons]
          dsimp only at few
          omega

theorem sendRequestWithin (m : Nat) (watch : Bool) (head : RequestHead) {inbound backend pieces b' c'}
    (sized : inbound.body.isEof = false) (sound : backend.out.Sound) (quiet : Silent backend)
    (read : readAll inbound.body inbound.reader = (.ok pieces,b',c')) :
    SentWithin m backend head inbound.body.isChunked pieces.flatten
      (sendRequest true (some m) watch head inbound backend) := by
  obtain ⟨later,same,run,few⟩ := readAllPulls read
  subst same
  refine sendMessageWithin sound quiet fun be fine still => ?_
  obtain ⟨body,reader⟩ := inbound
  cases body with
  | none =>
    cases read
    exact ⟨startUpload ⟨.none,reader⟩ be,[],rfl,.inl rfl,by simp [startUpload]⟩
  | eof d => cases sized
  | fixed n => exact loopWithin run (Nat.lt_succ_of_le few) fine still
  | chunked n a t d => exact loopWithin run (Nat.lt_succ_of_le few) fine still

theorem recvRun {s} (whole : ∀ f ∈ s.frames, f ≠ none) :
    ∃ pieces s', Pulls RecvStream.next s pieces s' ∧ pieces.flatten = s.data ∧ pieces.length = s.frames.length := by
  obtain ⟨frames,hidden⟩ := s
  induction frames with
  | nil => exact ⟨[],_,.done rfl,rfl,rfl⟩
  | cons f rest ih =>
    cases f with
    | none => exact absurd rfl (whole none List.mem_cons_self)
    | some frame =>
      obtain ⟨pieces,s',run,all,count⟩ := ih fun f mem => whole f (List.mem_cons_of_mem _ mem)
      refine ⟨frame.bytes::pieces,s',.piece rfl run,?_,?_⟩
      · rw [List.flatten_cons,all]
        simp [RecvStream.data]
      · simpa using count

def h2Framing (r : ProxyRequest) (uri : Uri) (head : RequestHead) (stream : RecvStream) :
    Bool × RequestHead :=
  let (chunked,headers) := prepareReverseProxyRequestHeadersH2 r.forwarding (! stream.isEndStream.1)
    (r.overrides.headers.getD head.headers)
  (chunked,⟨head.method,uri,.http11,headers⟩)

theorem sendRequestH2Within (r : ProxyRequest) (uri : Uri) (m : Nat) (watch : Bool) (head : RequestHead)
    {stream backend} (sends : sendsBody head.method = true) (sound : backend.out.Sound) (quiet : Silent backend)
    (whole : ∀ f ∈ stream.frames, f ≠ none) :
    SentWithin m backend (h2Framing r uri head stream).2 (h2Framing r uri head stream).1 stream.data
      (sendRequestH2 r.forwarding uri (some m) watch head.method
        (r.overrides.headers.getD head.headers) stream backend) := by
  have frames : stream.isEndStream.2.frames = stream.frames := by
    unfold RecvStream.isEndStream
    split <;> rfl
  unfold sendRequestH2 h2Framing
  simp only [sends,if_true]
  generalize prepareReverseProxyRequestHeadersH2 r.forwarding (! stream.isEndStream.1)
    (r.overrides.headers.getD head.headers) = framing
  have again : stream.isEndStream.2.isEndStream.2.frames = stream.frames := by
    unfold RecvStream.isEndStream
    split <;> rfl
  obtain ⟨pieces,last,run,all,count⟩ := recvRun (s := stream.isEndStream.2.isEndStream.2)
    (by rw [again]; exact whole)
  have data : pieces.flatten = stream.data := by
    rw [all,endStreamData,endStreamData]
  rw [← data]
  refine sendMessageWithin sound quiet fun be fine still => ?_
  unfold forwardH2RequestBody
  cases observed : stream.isEndStream.2.isEndStream with
  | mk ended rest =>
    rw [observed] at run again count
    cases ended with
    | true =>
      have visible := (endStreamAnswer stream.isEndStream.2).mp (by rw [observed])
      have empty : pieces = [] := by
        apply List.length_eq_zero_iff.mp
        rw [count,again,← frames,visible.1]
        rfl
      subst empty
      exact ⟨startUpload rest be,[],rfl,.inl rfl,by simp [startUpload]⟩
    | false => exact loopWithin run (Nat.lt_succ_of_le count.le) fine still

end ZeroServe.Proxy
