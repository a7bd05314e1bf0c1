import ZeroServe.RelayH2
import Mathlib.Tactic.IntervalCases

/-! The heads that the two forms of the proxy send before a body that may be compressed. Whatever
becomes of the body, the head is on the wire first. -/
namespace ZeroServe.Proxy
open ByteText ByteSource ChunkCoding H1 WireMessage

theorem toRadixPlain (n : Nat) : ∀ b ∈ toRadix 10 n, 48 ≤ b ∧ b ≤ 57 := by
  intro b mem
  obtain ⟨d,small,rfl⟩ := toRadixBytes 10 n (by omega) (by omega) b mem
  interval_cases d <;> decide

variable (status : Nat)

theorem pad3Bytes : ∀ b ∈ pad3 status, 48 ≤ b ∧ b ≤ 57 := by
  intro b mem
  rcases List.mem_append.mp mem with zero | digit
  · rw [List.eq_of_mem_replicate zero]
    decide
  · exact toRadixPlain status b digit

theorem reasonBytes {status} {reason} (h : canonicalReason status = some reason) : (13 : UInt8) ∉ reason := by
  obtain ⟨r,found,rfl⟩ := Option.map_eq_some_iff.mp h
  have all : ∀ r ∈ reasons, (13 : UInt8) ∉ ascii r.2 := by decide +kernel
  exact all r (List.mem_of_find?_eq_some found)

theorem responseLineProper : responseLine status ≠ [] ∧ (13 : UInt8) ∉ responseLine status := by
  have version : (13 : UInt8) ∉ ascii "HTTP/1.1 " := by decide
  have digits : (13 : UInt8) ∉ pad3 status := fun mem => by
    have range := (pad3Bytes status 13 mem).1
    exact absurd range (by decide)
  have text : (13 : UInt8) ∉ ascii "status code " := by decide
  have number : (13 : UInt8) ∉ toRadix 10 status := fun mem => by
    have range := (toRadixPlain status 13 mem).1
    exact absurd range (by decide)
  refine ⟨by simp [responseLine,ascii],?_⟩
  unfold responseLine
  cases reason : canonicalReason status with
  | none => simp [version,digits,text,number]
  | some r => simp [version,digits,reasonBytes reason]

theorem readReplyHead (headers : HeaderMap) (rest : Bytes) :
    readHead (encodeResponseHeadRaw status headers ++ rest) = some (⟨responseLine status,wireFields headers⟩,rest) :=
  readHeadLines (responseLineProper status) headers rest

def Extends (w w' : Sink) : Prop := ∃ more, w'.written = w.written ++ more

theorem Extends.refl (w : Sink) : Extends w w := ⟨[],by simp⟩

theorem Extends.trans {w w' w''} (first : Extends w w') (second : Extends w' w'') : Extends w w'' := by
  obtain ⟨a,first⟩ := first
  obtain ⟨b,second⟩ := second
  exact ⟨a ++ b,by rw [second,first,List.append_assoc]⟩

theorem extendsWriteAll (data : Bytes) (w : Sink) : Extends w (writeAll data w).2 := by
  unfold writeAll
  split
  · exact ⟨data,rfl⟩
  · exact ⟨data,rfl⟩
  · rename_i k _ _
    exact ⟨data.take k,rfl⟩

theorem extendsWriteChunk (data : Bytes) (w : Sink) : Extends w (writeChunk data w).2 := by
  unfold writeChunk
  split
  · exact .refl w
  · have size := extendsWriteAll (toRadix 16 data.length ++ crlf) w
    split
    · rename_i w1 failed
      rwa [failed] at size
    · rename_i w1 wrote
      rw [wrote] at size
      have body := extendsWriteAll data w1
      split
      · rename_i w2 failed
        rw [failed] at body
        exact size.trans body
      · rename_i w2 wrote
        rw [wrote] at body
        exact (size.trans body).trans (extendsWriteAll crlf w2)

theorem extendsEncodeLoop (enc : Encoder) (fuel : Nat) (fed : List Bytes) (b : Body) (c : Conn) (w : Sink) :
    Extends w (encodeLoop enc fuel fed b c w).2.2.2 := by
  induction fuel generalizing fed b c w with
  | zero => exact .refl w
  | succ fuel ih =>
    unfold encodeLoop
    split
    · exact .refl w
    · split
      · exact .refl w
      · rename_i out _
        have step := extendsWriteChunk out w
        split
        · rename_i w1 failed
          rwa [failed] at step
        · rename_i w1 wrote
          rw [wrote] at step
          exact step.trans (ih _ _ _ _)
    · split
      · exact .refl w
      · rename_i out _
        have step := extendsWriteChunk out w
        split
        · rename_i w1 failed
          rwa [failed] at step
        · rename_i w1 wrote
          rw [wrote] at step
          exact step.trans (extendsWriteAll lastChunk w1)

theorem extendsBatch (r : Relay) : Extends r.client (writeProxyBodyBatch r).2.client := by
  unfold writeProxyBodyBatch
  split
  · exact .refl _
  · exact extendsWriteAll r.batch r.client

theorem extendsRelay (size : Nat) (rechunk : Bool) (fuel : Nat) (r : Relay) :
    Extends r.client (relayLoop size rechunk fuel r).2.client := by
  induction fuel generalizing r with
  | zero => exact .refl _
  | succ fuel ih =>
    unfold relayLoop
    split
    · exact .refl _
    · rename_i body conn batch _
      have step := extendsBatch {r with body,conn,batch}
      split
      · split
        · rename_i r1 failed
          rwa [failed] at step
        · rename_i r1 wrote
          rw [wrote] at step
          exact step.trans (ih r1)
      · exact ih _
    · rename_i body conn batch _
      have step := extendsBatch {r with body,conn,batch}
      split
      · split
        · rename_i r1 failed
          rwa [failed] at step
        · rename_i r1 wrote
          rw [wrote] at step
          exact step.trans (ih r1)
      · split
        · exact .refl _
        · exact ih _
    · exact extendsBatch _

theorem extendsForward (body : Body) (conn : Conn) (client : Sink) :
    Extends client (forwardProxyBody body conn client).2.client := by
  unfold forwardProxyBody forwardProxyBodyOf
  split
  · exact .refl _
  · exact extendsRelay _ _ _ _
  · exact extendsRelay _ _ _ _

def HeadSent (w w' : Sink) (status : Nat) (headers : HeaderMap) : Prop :=
  ∃ more, w'.written = w.written ++ (encodeResponseHeadRaw status headers ++ more)

theorem headSentThen {w w1 w' status} {headers} (wrote : writeResponseHeadRaw status headers w = (true,w1))
    (later : Extends w1 w') : HeadSent w w' status headers := by
  obtain ⟨more,later⟩ := later
  exact ⟨more,by rw [later,writeAllOk wrote,List.append_assoc]⟩

theorem soundHead {w} (sound : w.Sound) (status : Nat) (headers : HeaderMap) :
    ∃ w1, writeResponseHeadRaw status headers w = (true,w1) := by
  cases wrote : writeResponseHeadRaw status headers w with
  | mk ok w1 =>
    cases (writeAllSound sound wrote).1
    exact ⟨w1,rfl⟩

theorem encodeFromSent {enc w} (sound : w.Sound) (status : Nat) (headers : HeaderMap) (ahead : Bytes) (b : Body)
    (c : Conn) : HeadSent w (encodeFrom enc status headers ahead b c w).2.2.2 status
      (((enc.applyEncodingHeaders headers).remove .transferEncoding).insert .transferEncoding
        (.ofAscii "chunked")) := by
  obtain ⟨w1,wrote⟩ := soundHead sound status
    (((enc.applyEncodingHeaders headers).remove .transferEncoding).insert .transferEncoding (.ofAscii "chunked"))
  refine headSentThen wrote ?_
  unfold encodeFrom
  dsimp only
  rw [wrote]
  dsimp only
  split
  · exact .refl _
  · split
    · exact extendsEncodeLoop _ _ _ _ _ _
    · split
      · exact .refl _
      · rename_i out _
        have step := extendsWriteChunk out w1
        split
        · rename_i w2 failed
          rwa [failed] at step
        · rename_i w2 done
          rw [done] at step
          exact step.trans (extendsEncodeLoop _ _ _ _ _ _)

theorem readAheadEnds (minLength : Nat) {fuel} {seen pieces b b' c c'}
    (whole : readAllLoop fuel seen b c = (.ok pieces,b',c')) :
    ∃ ended out b1 c1, readAheadLoop minLength fuel seen.flatten b c = (some (ended,out),b1,c1) ∧
      (ended = true ↔ pieces.flatten.length ≤ minLength) := by
  induction fuel generalizing seen b c with
  | zero => cases whole
  | succ fuel ih =>
    obtain ⟨later,_,_,all,_⟩ := readAllLoopSpec whole
    unfold readAheadLoop
    split
    · rename_i enough
      refine ⟨false,_,_,_,rfl,?_⟩
      rw [all,List.flatten_append,List.length_append]
      simp only [Bool.false_eq_true,false_iff]
      omega
    · rename_i few
      obtain ⟨⟨piece,b1,c1⟩,step⟩ : ∃ r, nextData b c = r := ⟨_,rfl⟩
      rw [readAllLoop,step] at whole
      rw [step]
      cases piece with
      | none =>
        cases whole
        exact ⟨true,_,_,_,rfl,iff_of_true rfl (Nat.le_of_not_lt few)⟩
      | some outcome =>
        cases outcome with
        | error e => cases whole
        | ok data =>
          obtain ⟨ended,out,b2,c2,run,exact⟩ := ih whole
          refine ⟨ended,out,b2,c2,?_,exact⟩
          rw [← run]
          simp

section
variable {x : Exchange} {head : ReplyHead} {body b' : Body} {conn c' : Conn} {client : Sink} {pieces : List Bytes}

theorem otherNames : HeaderName.contentEncoding ≠ .transferEncoding ∧ HeaderName.contentEncoding ≠ .contentLength ∧
    HeaderName.contentEncoding ≠ .connection := by decide +kernel

theorem encodedFieldsKept (headers : HeaderMap) :
    ((headers.remove .transferEncoding).insert .transferEncoding (.ofAscii "chunked")).getAll .contentEncoding =
      headers.getAll .contentEncoding := by
  rw [FieldMap.getAllInsertOther _ _ otherNames.1,FieldMap.getAllRemoveOther _ otherNames.1]

theorem forwardEncodedSent (sound : client.Sound) (whole : readAll body conn = (.ok pieces,b',c')) (enc : Encoder)
    (minLength status : Nat) (headers : HeaderMap) :
    ∃ sent, HeadSent client (forwardProxyBodyEncoded enc minLength status headers body conn client).2.2.2 status sent ∧
      sent.getAll .contentEncoding =
        if hint body = .stream ∧ pieces.flatten.length ≤ minLength then headers.getAll .contentEncoding
        else (enc.applyEncodingHeaders headers).getAll .contentEncoding := by
  unfold forwardProxyBodyEncoded
  split
  · rename_i streamed
    obtain ⟨ended,out,b1,c1,run,exact⟩ := readAheadEnds minLength whole
    rw [List.flatten_nil] at run
    rw [run]
    cases ended with
    | true =>
      rw [if_pos ⟨streamed,exact.mp rfl⟩]
      dsimp only
      obtain ⟨w1,wrote⟩ := soundHead sound status
        ((headers.remove .transferEncoding).insert .contentLength (lengthHeader out.length))
      refine ⟨_,headSentThen wrote ?_,?_⟩
      · rw [wrote]
        dsimp only
        split
        · exact .refl _
        · exact extendsWriteAll out w1
      · rw [FieldMap.getAllInsertOther _ _ otherNames.2.1,FieldMap.getAllRemoveOther _ otherNames.1]
    | false =>
      rw [if_neg fun short => by cases exact.mpr short.2]
      exact ⟨_,encodeFromSent sound status headers out b1 c1,encodedFieldsKept _⟩
  · rename_i sized
    rw [if_neg fun short => sized short.1]
    exact ⟨_,encodeFromSent sound status headers [] body conn,encodedFieldsKept _⟩

theorem relayReplyHead (encoding : x.rules.encode.isSome = true) (sound : client.Sound)
    (whole : readAll body conn = (.ok pieces,b',c')) :
    ∃ sent, HeadSent client (relayReply x head body conn client).2.2 head.status sent ∧ sent.getAll .contentEncoding =
        match chosenEncoder x head with
        | some (enc,minLength) =>
          if hint body = .stream ∧ pieces.flatten.length ≤ minLength then head.headers.getAll .contentEncoding
          else (enc.applyEncodingHeaders head.headers).getAll .contentEncoding
        | none => head.headers.getAll .contentEncoding := by
  unfold relayReply
  cases chosenEncoder x head with
  | some chosen => exact forwardEncodedSent sound whole chosen.1 chosen.2 head.status head.headers
  | none =>
    have indirect : ¬ (head.sendBody && ! x.headOnly && x.rules.encode.isNone && hint body == .fixed) = true := by
      rw [Option.isNone_eq_false_iff.mpr encoding]
      simp
    obtain ⟨w1,wrote⟩ := soundHead sound head.status head.headers
    rw [if_neg indirect,wrote]
    refine ⟨head.headers,headSentThen wrote ?_,rfl⟩
    dsimp only
    split
    · split <;> exact .refl _
    · exact extendsForward body conn w1

end

def sentHeaders (w : SendStream) : Option HeaderMap := w.response.map (·.headers)

theorem spendSent {w w1 : SendStream} (spent : w.spend = some w1) : w1.response = w.response := by
  unfold SendStream.spend at spent
  split at spent <;> cases spent <;> rfl

theorem sendDataSent (w : SendStream) (data : Bytes) (endStream : Bool) :
    sentHeaders (w.sendData data endStream).2 = sentHeaders w := by
  unfold SendStream.sendData
  split
  · rfl
  · split
    · rfl
    · rename_i w1 spent
      simp only [sentHeaders,spendSent spent,Option.map_map]
      rfl

theorem forwardH2Sent (fuel : Nat) (next : Option (Except HttpError Bytes)) (sentAny : Bool) (b : Body) (c : Conn)
    (w : SendStream) : sentHeaders (forwardH2Loop fuel next sentAny b c w).2.2 = sentHeaders w := by
  induction fuel generalizing next sentAny b c w with
  | zero => rfl
  | succ fuel ih =>
    cases next with
    | none =>
      cases sentAny with
      | true => rfl
      | false => exact sendDataSent w [] true
    | some piece =>
      cases piece with
      | error e => rfl
      | ok chunk =>
        unfold forwardH2Loop
        dsimp only
        have step := sendDataSent w chunk (nextData b c).1.isNone
        split
        · rename_i w1 failed
          rwa [failed] at step
        · rename_i w1 sent
          rw [sent] at step
          exact (ih _ _ _ _ _).trans step

theorem encodeH2Sent (enc : Encoder) (fuel : Nat) (fed : List Bytes) (b : Body) (c : Conn) (w : SendStream) :
    sentHeaders (encodeH2Loop enc fuel fed b c w).2.2 = sentHeaders w := by
  induction fuel generalizing fed b c w with
  | zero => rfl
  | succ fuel ih =>
    unfold encodeH2Loop
    split
    · rfl
    · split
      · rfl
      · rename_i out _
        have step := sendDataSent w out false
        split
        · rename_i w1 failed
          rwa [failed] at step
        · rename_i w1 sent
          rw [sent] at step
          exact (ih _ _ _ _).trans step
    · split
      · rfl
      · exact sendDataSent w _ true

theorem relayBodyH2Sent (x : Exchange) (head : ReplyHead) (chosen : Option (Encoder × Nat)) (body : Body) (conn : Conn)
    (w : SendStream) : sentHeaders (relayBodyH2 x head chosen body conn w).2.2 = sentHeaders w := by
  unfold relayBodyH2
  split
  · split <;> rfl
  · split
    · unfold forwardProxyBodyH2Encoded
      split
      · rfl
      · exact encodeH2Sent _ _ _ _ _ _
    · exact forwardH2Sent _ _ _ _ _ _

end ZeroServe.Proxy
