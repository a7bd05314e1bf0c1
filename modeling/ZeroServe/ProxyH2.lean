import ZeroServe.RequestFraming

/-! The HTTP/2 form of the request side: DATA frames become an HTTP/1.1 body. How many observations after the last
frame still miss the end of the stream is part of the stream, so every arrival order is a stream value. -/
namespace ZeroServe.Proxy
open ByteText ByteSource ChunkCoding H1 WireMessage

structure DataFrame where
  bytes : Bytes
  small : bytes.length < 2^24
  deriving DecidableEq

structure RecvStream where
  /- What is still to be taken; `none` is a reset in that place. -/
  frames : List (Option DataFrame)
  /- How often the drained stream is observed before its end shows. -/
  hidden : Nat
  deriving DecidableEq

def RecvStream.isEndStream (s : RecvStream) : Bool × RecvStream :=
  if s.frames = [] then (s.hidden == 0,{s with hidden := s.hidden - 1}) else (false,s)

def RecvStream.next (s : RecvStream) : Option (Except HttpError Bytes) × RecvStream :=
  match s.frames with
  | [] => (none,s)
  | some frame::frames => (some (.ok frame.bytes),{s with frames})
  | none::frames => (some (.error .io),{s with frames})

def RecvStream.data (s : RecvStream) : Bytes :=
  s.frames.flatMap (fun f => match f with | some frame => frame.bytes | none => [])

def forwardH2RequestBody (limit : Option Nat) (watch chunked : Bool) (stream : RecvStream)
    (backend : Backend) : Except RequestBodyError ForwardOutcome × Upload RecvStream :=
  match stream.isEndStream with
  | (true,stream) => (.ok (.completed none),startUpload stream backend)
  | (false,stream) => forwardLoop RecvStream.next limit watch chunked
      (stream.frames.length + 1) (startUpload stream backend)

/- `reverse_proxy_request_h2` up to the point where the request is sent. The stream is
observed for the framing only when a body is to be sent. -/
def sendRequestH2 (f : Forwarding) (uri : Uri) (limit : Option Nat) (watch : Bool)
    (method : Method) (headers : HeaderMap) (stream : RecvStream) (backend : Backend) :
    Except SendError ForwardOutcome × Upload RecvStream :=
  let (hasBody,stream) := if sendsBody method then
      let (ended,stream) := stream.isEndStream
      (! ended,stream)
    else (false,stream)
  let (chunked,headers) := prepareReverseProxyRequestHeadersH2 f hasBody headers
  sendMessage (sendsBody method) ⟨method,uri,.http11,headers⟩
    (forwardH2RequestBody limit watch chunked) stream backend

def RecvStream.endVisible (s : RecvStream) : Prop := s.frames = [] ∧ s.hidden = 0

/- The end shows after the framing was chosen and before the body loop looks. -/
def RecvStream.endShowsBetween (s : RecvStream) : Prop := s.frames = [] ∧ s.hidden = 1

def H2FramingHolds (method : Method) (headers : HeaderMap) (stream : RecvStream) : Prop :=
  sendsBody method = true → ¬ stream.endVisible →
    match survivingLength headers with
    | some n => ∀ v ∈ headers.getAll .contentLength, lengthValue v = some n
    | none => ¬ stream.endShowsBetween

theorem recvPulls {s s' pieces} (run : Pulls RecvStream.next s pieces s') :
    pieces.flatten = s.data ∧ ∀ d ∈ pieces, d.length < 2^24 := by
  induction run with
  | @done s s' ended =>
    unfold RecvStream.next at ended
    split at ended
    · rename_i drained
      simp [RecvStream.data,drained]
    · cases ended
    · cases ended
  | @piece s data s1 later s' step tail ih =>
    unfold RecvStream.next at step
    split at step
    · cases step
    · rename_i frame frames taken
      cases step
      refine ⟨?_,?_⟩
      · simp [RecvStream.data,taken,ih.1]
      · intro d mem
        rcases List.mem_cons.mp mem with rfl | inner
        · exact frame.small
        · exact ih.2 d inner
    · cases step

theorem endVisibleData {s : RecvStream} (visible : s.endVisible) : s.data = [] := by
  simp [RecvStream.data,visible.1]

/- Without framing the data is sent as it is; with it, a stream whose end already shows
gets no last chunk. -/
theorem forwardH2Completed {limit : Option Nat} {watch chunked : Bool} {stream : RecvStream}
    {backend : Backend} {u : Upload RecvStream} {pending : Option Response}
    (h : forwardH2RequestBody limit watch chunked stream backend = (.ok (.completed pending),u)) :
    ∃ body, u.backend.out.written = backend.out.written ++ body ∧ (chunked = false → body = stream.data) ∧
      (chunked = true → ((∃ payload, Coded chunkSize body payload []) ↔ ¬ stream.endVisible)) := by
  have loop : ∀ s : RecvStream, s.data = stream.data → ¬ stream.endVisible →
      forwardLoop RecvStream.next limit watch chunked (s.frames.length + 1) (startUpload s backend) =
        (.ok (.completed pending),u) →
      ∃ body, u.backend.out.written = backend.out.written ++ body ∧
        (chunked = false → body = stream.data) ∧
        (chunked = true → ((∃ payload, Coded chunkSize body payload []) ↔ ¬ stream.endVisible)) := by
    intro s same unseen h
    obtain ⟨pieces,run,written⟩ := forwardLoopCompleted h
    obtain ⟨all,small⟩ := recvPulls run
    refine ⟨_,written,fun plain => ?_,fun framed => iff_of_true ⟨pieces.flatten,?_⟩ unseen⟩
    · rw [plain,wireBodyPlain,all]
      exact same
    · rw [framed]
      exact chunkedWire (fun d mem => lt_trans (small d mem) (by decide))
  unfold forwardH2RequestBody RecvStream.isEndStream at h
  by_cases drained : stream.frames = []
  · rw [if_pos drained] at h
    cases hidden : stream.hidden with
    | zero =>
      simp only [hidden,beq_self_eq_true] at h
      cases h
      have visible : stream.endVisible := ⟨drained,hidden⟩
      refine ⟨[],by simp [startUpload],fun _ => (endVisibleData visible).symm,fun _ => ?_⟩
      refine iff_of_false ?_ (fun unseen => unseen visible)
      rintro ⟨_,coded⟩
      exact Nat.not_lt_zero _ (codedShorter coded)
    | succ k =>
      simp only [hidden] at h
      exact loop ⟨stream.frames,k⟩ rfl (fun visible => absurd visible.2 (by omega)) h
  · rw [if_neg drained] at h
    exact loop _ rfl (fun visible => drained visible.1) h

variable (s : RecvStream)

theorem endStreamAnswer : s.isEndStream.1 = true ↔ s.endVisible := by
  unfold RecvStream.isEndStream RecvStream.endVisible
  split
  · rename_i drained; simp [drained]
  · rename_i more; simp [more]

theorem endStreamData : s.isEndStream.2.data = s.data := by
  unfold RecvStream.isEndStream
  split <;> rfl

theorem endStreamAfter (unseen : ¬ s.endVisible) : s.isEndStream.2.endVisible ↔ s.endShowsBetween := by
  unfold RecvStream.isEndStream RecvStream.endVisible RecvStream.endShowsBetween at *
  split
  · rename_i drained
    have some : s.hidden ≠ 0 := fun zero => unseen ⟨drained,zero⟩
    simp only [drained,true_and]
    omega
  · rename_i more; simp [more]

theorem endStreamStays (visible : s.endVisible) : s.isEndStream.2.endVisible := by
  unfold RecvStream.isEndStream
  rw [if_pos visible.1]
  exact ⟨visible.1,by simp [visible.2]⟩

theorem bodilessComplete (f : Forwarding) (uri : Uri) (method : Method) (headers : HeaderMap) :
    ∃ payload, Complete decimal64 chunkSize (encodeRequestHead
      ⟨method,uri,.http11,(prepareReverseProxyRequestHeadersH2 f false headers).2⟩) payload := by
  obtain ⟨plain,codings,lengths⟩ := preparedH2 f false headers
  simpa using (requestCompleteNone [] codings lengths).mpr rfl

theorem bodyComplete (f : Forwarding) (uri : Uri) (method : Method) (headers : HeaderMap) (body : Bytes) :
    (∃ payload, Complete decimal64 chunkSize (encodeRequestHead
      ⟨method,uri,.http11,(prepareReverseProxyRequestHeadersH2 f true headers).2⟩ ++ body) payload) ↔
    match survivingLength headers with
    | some _ => ∀ v ∈ headers.getAll .contentLength, lengthValue v = some body.length
    | none => ∃ payload, Coded chunkSize body payload [] := by
  obtain ⟨chunked,codings,lengths⟩ := preparedH2 f true headers
  rw [chunked] at codings
  cases left : survivingLength headers with
  | none =>
    rw [left] at codings lengths
    exact requestCompleteChunked body codings lengths
  | some n =>
    rw [left] at codings lengths
    have present : headers.getAll .contentLength ≠ [] := by
      unfold survivingLength at left
      split at left
      · cases left
      · exact contentLengthPresent left
    have lengths : (prepareReverseProxyRequestHeadersH2 f true headers).2.getAll .contentLength =
      headers.getAll .contentLength := lengths
    rw [requestCompleteLength body codings (by rw [lengths]; exact present),lengths]

theorem h2FramingExact {f : Forwarding} {uri : Uri} {limit : Option Nat} {watch : Bool}
    {method : Method} {headers : HeaderMap} {stream : RecvStream} {backend : Backend}
    {pending : Option Response} {u : Upload RecvStream}
    (declared : ∀ n, contentLength headers = some n → stream.data.length = n)
    (sent : sendRequestH2 f uri limit watch method headers stream backend = (.ok (.completed pending),u)) :
    ∃ wire, u.backend.out.written = backend.out.written ++ wire ∧
      ((∃ payload, Complete decimal64 chunkSize wire payload) ↔ H2FramingHolds method headers stream) := by
  unfold sendRequestH2 at sent
  cases sends : sendsBody method with
  | false =>
    simp only [sends] at sent
    refine ⟨_,(sendMessageBodiless sent).1,iff_of_true (bodilessComplete f uri method headers) ?_⟩
    intro send
    rw [sends] at send
    cases send
  | true =>
    simp only [sends,if_true] at sent
    obtain ⟨out,wrote,forwarded⟩ := sendMessageCompleted sent
    obtain ⟨body,written,plain,framed⟩ := forwardH2Completed forwarded
    rw [wrote, List.append_assoc] at written
    refine ⟨_,written,?_⟩
    by_cases visible : stream.endVisible
    · -- nothing to frame and nothing to send
      rw [(endStreamAnswer stream).mpr visible] at plain ⊢
      have nothing : body = [] := by
        rw [plain (preparedH2 f false headers).1]
        exact endVisibleData (endStreamStays stream visible)
      rw [nothing,List.append_nil]
      exact iff_of_true (bodilessComplete f uri method headers)
        (fun _ unseen => absurd visible unseen)
    · have answer : stream.isEndStream.1 = false := by
        simpa using fun h => visible ((endStreamAnswer stream).mp h)
      rw [answer] at plain framed ⊢
      rw [Bool.not_false] at plain framed ⊢
      rw [(preparedH2 f true headers).1,endStreamData] at plain
      rw [(preparedH2 f true headers).1,endStreamAfter stream visible] at framed
      rw [bodyComplete,H2FramingHolds]
      simp only [sends,visible,not_false_eq_true,forall_const]
      cases left : survivingLength headers with
      | none => exact framed (by rw [left]; rfl)
      | some n =>
        have length : contentLength headers = some n := by
          unfold survivingLength at left
          split at left
          · cases left
          · exact left
        rw [plain (by rw [left]; rfl),declared n length]

def helloStream (hidden : Nat) : RecvStream :=
  ⟨[some ⟨ascii "hello",by decide +kernel⟩],hidden⟩
def h2Fields (lengths : List HeaderValue) : HeaderMap :=
  ⟨(.host,.ofAscii "a")::lengths.map (fun v => (.contentLength,v))⟩
def sendHelloH2 (lengths : List HeaderValue) : Except SendError ForwardOutcome × Upload RecvStream :=
  sendRequestH2 caddyForwarding rootUri none true (.ofAscii "POST") (h2Fields lengths)
    (helloStream 0) idleBackend

theorem h2UploadComplete : ∃ payload, Complete decimal64 chunkSize
    (ascii "POST / HTTP/1.1\r\nhost: a\r\ncontent-length: 5\r\n\r\nhello") payload := by
  have declared : ∀ n, contentLength (h2Fields [.ofAscii "5"]) = some n →
      (helloStream 0).data.length = n := by
    intro n length
    have five : contentLength (h2Fields [.ofAscii "5"]) = some 5 := by decide +kernel
    cases five.symm.trans length
    decide +kernel
  have sent : sendHelloH2 [.ofAscii "5"] =
      (.ok (.completed none),(sendHelloH2 [.ofAscii "5"]).2) := Prod.ext (by decide +kernel) rfl
  have wrote : (sendHelloH2 [.ofAscii "5"]).2.backend.out.written =
      ascii "POST / HTTP/1.1\r\nhost: a\r\ncontent-length: 5\r\n\r\nhello" := by decide +kernel
  obtain ⟨wire,written,exact⟩ := h2FramingExact declared sent
  rw [wrote,show idleBackend.out.written = [] from rfl,List.nil_append] at written
  rw [written]
  apply exact.mpr
  intro _ _
  have five : survivingLength (h2Fields [.ofAscii "5"]) = some 5 := by decide +kernel
  rw [five]
  decide +kernel

theorem repeatedLengthForwarded :
    contentLength (h2Fields [.ofAscii "5",.ofAscii "6"]) = some (helloStream 0).data.length ∧
    (sendHelloH2 [.ofAscii "5",.ofAscii "6"]).1 = .ok (.completed none) ∧
    (sendHelloH2 [.ofAscii "5",.ofAscii "6"]).2.backend.out.written =
      ascii "POST / HTTP/1.1\r\nhost: a\r\ncontent-length: 5\r\ncontent-length: 6\r\n\r\nhello" ∧
    ¬ ∃ payload, Complete decimal64 chunkSize
      (ascii "POST / HTTP/1.1\r\nhost: a\r\ncontent-length: 5\r\ncontent-length: 6\r\n\r\nhello") payload := by
  refine ⟨by decide +kernel,by decide +kernel,by decide +kernel,?_⟩
  intro ⟨payload,head,body,f,read,kind,_⟩
  have actual : (readHead
      (ascii "POST / HTTP/1.1\r\nhost: a\r\ncontent-length: 5\r\ncontent-length: 6\r\n\r\nhello")).map
      (fun r => headFraming decimal64 r.1) = some none := by decide +kernel
  rw [read,Option.map_some,kind] at actual
  cases actual

end ZeroServe.Proxy
