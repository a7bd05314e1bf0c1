import ZeroServe.ProxyExchange
import ZeroServe.RawResponse

/-! Which head on the backend's stream is taken for the response. Interim heads are passed over on either path; the
final head and the bytes after it depend on the stream alone. -/
namespace ZeroServe.Proxy
open ByteText ByteSource H1

def HeadAt (stream raw after : Bytes) : Prop :=
  stream = raw ++ (crlf ++ crlf) ++ after ∧ find (crlf ++ crlf) stream = some raw.length

theorem headAtUnique {s raw after raw' after'} (h : HeadAt s raw after) (h' : HeadAt s raw' after') :
    raw = raw' ∧ after = after' := by
  have lengths := Option.some.inj (h.2.symm.trans h'.2)
  have same := h.1.symm.trans h'.1
  simp only [List.append_assoc] at same
  obtain ⟨front,back⟩ := List.append_inj same lengths
  exact ⟨front,List.append_cancel_left (List.append_cancel_left back)⟩

theorem headAtFull {s raw after} (h : HeadAt s raw after) : [] ∉ headerLines raw :=
  noEmptyLine h.2 h.1

inductive FinalHead : Bytes → Bytes → Bytes → Prop where
  | here {stream raw after} (place : HeadAt stream raw after)
      (final : ∀ head, parseResponseHead raw = .ok head →
        isInterimResponseStatus head.status = false) : FinalHead stream raw after
  | skip {stream raw after raw' after' head} (place : HeadAt stream raw after)
      (parsed : parseResponseHead raw = .ok head)
      (interim : isInterimResponseStatus head.status = true)
      (later : FinalHead after raw' after') : FinalHead stream raw' after'

theorem finalHeadUnique {s raw after raw' after'} (h : FinalHead s raw after) (h' : FinalHead s raw' after') :
    raw = raw' ∧ after = after' := by
  induction h with
  | here place final =>
    cases h' with
    | here at' _ => exact headAtUnique place at'
    | skip at' parsed interim _ =>
      obtain ⟨rfl,_⟩ := headAtUnique place at'
      rw [final _ parsed] at interim
      cases interim
  | skip place parsed interim later ih =>
    cases h' with
    | here at' final =>
      obtain ⟨rfl,_⟩ := headAtUnique place at'
      rw [final _ parsed] at interim
      cases interim
    | skip at' _ _ later' =>
      obtain ⟨_,rfl⟩ := headAtUnique place at'
      exact ih later'

theorem finalHeadFull {s raw after} (h : FinalHead s raw after) : [] ∉ headerLines raw := by
  induction h with
  | here place _ => exact headAtFull place
  | skip _ _ _ _ ih => exact ih

theorem finalHeadParsed {stream raw after head} (place : HeadAt stream raw after)
    (parsed : parseResponseHead raw = .ok head) (final : isInterimResponseStatus head.status = false) :
    FinalHead stream raw after := by
  refine .here place (fun head' again => ?_)
  cases parsed.symm.trans again
  exact final

def Skips (s s' : Bytes) : Prop := ∀ raw after, FinalHead s' raw after → FinalHead s raw after

theorem Skips.refl (s : Bytes) : Skips s s := fun _ _ h => h

theorem Skips.trans {s s' t} (h : Skips s s') (k : Skips s' t) : Skips s t :=
  fun raw after final => h raw after (k raw after final)

theorem parsedResponse {raw r} (h : parseResponse raw = .ok r) :
    parseResponseHead raw = .ok r.head ∧ r.body = responseBodyFromHeaders r.head := by
  unfold parseResponse at h
  cases parsed : parseResponseHead raw with
  | error e => rw [parsed] at h; cases h
  | ok head =>
    rw [parsed] at h
    cases h
    exact ⟨rfl,rfl⟩

theorem headStep {s raw after r} (place : HeadAt s raw after) (parsed : parseResponse raw = .ok r) :
    if isInterimResponseStatus r.head.status then Skips s after else FinalHead s raw after := by
  have same := (parsedResponse parsed).1
  split
  · rename_i interim
    exact fun raw' after' final => .skip place same interim final
  · rename_i final
    exact finalHeadParsed place same (Bool.eq_false_iff.mpr final)

theorem readHeadersAt {c c' raw} (h : readHeaders c = (.ok (some raw),c')) :
    HeadAt c.unread raw c'.unread := readUntilSpec h

def ReadAs (fast : Bool) (raw : Bytes) : ResponseRead → Prop
  | .rawFixed r => fast = true ∧ rawFixedResponse raw = .ok (some r)
  | .parsed r => parseResponse raw = .ok r ∧ (fast = true → rawFixedResponse raw = .ok none)

theorem rawNotInterim {raw r head} (full : [] ∉ headerLines raw) (accepted : rawFixedResponse raw = .ok (some r))
    (parsed : parseResponseHead raw = .ok head) : isInterimResponseStatus head.status = false := by
  obtain ⟨a⟩ := rawFixedAccepted accepted
  have status := ((a.parses full).mp parsed).2.2.1
  have range := a.statusRange
  simp only [isInterimResponseStatus,StatusCode.isInformational,status]
  rw [Bool.and_eq_false_iff]
  exact Or.inl (by simpa using range.1)

theorem rawHeadFinal {s raw after r} (place : HeadAt s raw after) (accepted : rawFixedResponse raw = .ok (some r)) :
    FinalHead s raw after :=
  .here place (fun _ parsed => rawNotInterim (headAtFull place) accepted parsed)

theorem nextFinalAt {α : Type} {next : Conn → Except HttpError (Option α) × Conn} {interim : α → Bool}
    (As : Bytes → α → Prop) (step : ∀ {c c' : Conn} {r : α}, next c = (.ok (some r),c') →
      ∃ raw, HeadAt c.unread raw c'.unread ∧ As raw r ∧
        if interim r then Skips c.unread c'.unread else FinalHead c.unread raw c'.unread) {left} {c c' r}
    (h : nextFinal next interim left c = (.ok (some r),c')) : ∃ raw, FinalHead c.unread raw c'.unread ∧ As raw r := by
  induction left generalizing c with
  | zero => cases h
  | succ left ih =>
    unfold nextFinal at h
    split at h
    · cases h
    · cases h
    · rename_i r1 c1 read
      obtain ⟨raw,_,as,kind⟩ := step read
      split at h
      · rename_i passed
        rw [if_pos passed] at kind
        obtain ⟨raw',final,as'⟩ := ih h
        exact ⟨raw',kind _ _ final,as'⟩
      · rename_i final
        cases h
        rw [if_neg final] at kind
        exact ⟨raw,kind,as⟩

theorem nextFinalResponseAt {c c' r} (h : nextFinalResponse c = (.ok (some r),c')) :
    ∃ raw, FinalHead c.unread raw c'.unread ∧ parseResponse raw = .ok r := by
  refine nextFinalAt (fun raw r => parseResponse raw = .ok r) (fun {c c' r} read => ?_) h
  unfold nextResponse at read
  split at read
  · cases read
  · cases read
  · rename_i raw c1 head
    cases parsed : parseResponse raw with
    | error e => rw [parsed] at read; cases read
    | ok r1 =>
      rw [parsed] at read
      cases read
      exact ⟨raw,readHeadersAt head,parsed,headStep (readHeadersAt head) parsed⟩

theorem nextFinalFastAt {c c' r} (h : nextFinalResponseFast c = (.ok (some r),c')) :
    ∃ raw, FinalHead c.unread raw c'.unread ∧ ReadAs true raw r := by
  refine nextFinalAt (ReadAs true) (fun {c c' r} read => ?_) h
  unfold nextResponseFast at read
  split at read
  · cases read
  · cases read
  · rename_i raw c1 head
    have place := readHeadersAt head
    split at read
    · rename_i accepted
      cases read
      exact ⟨raw,place,⟨rfl,accepted⟩,rawHeadFinal place accepted⟩
    · rename_i refused
      cases parsed : parseResponse raw with
      | error e => rw [parsed] at read; cases read
      | ok r1 =>
        rw [parsed] at read
        cases read
        exact ⟨raw,place,⟨parsed,fun _ => refused⟩,headStep place parsed⟩
    · cases read

theorem tryNextResponseAt {c c' r} (h : tryNextResponse c = (.ok (some r),c')) :
    ∃ raw, HeadAt c.unread raw c'.unread ∧ parseResponse raw = .ok r := by
  unfold tryNextResponse at h
  split at h
  · split at h <;> cases h
  · rename_i idx found
    cases parsed : parseResponse (c.buf.take idx) with
    | error e => rw [parsed] at h; cases h
    | ok r1 =>
      rw [parsed] at h
      cases h
      have bound := findBound found
      have length : (c.buf.take idx).length = idx := by
        rw [List.length_take]
        omega
      refine ⟨_,⟨?_,?_⟩,parsed⟩
      · have sound := findSound found
        conv => lhs; rw [Conn.unread,sound]
        simp [Conn.unread,crlf]
      · rw [length]
        exact findAppend found

theorem tryNextResponseIo {c c' r} (h : tryNextResponse c = (r,c')) : c'.io = c.io := by
  unfold tryNextResponse at h
  split at h
  · split at h <;> cases h <;> rfl
  · exact (congrArg (fun t => t.2.io) h).symm

theorem tryNextResponseStays {c c'} (h : tryNextResponse c = (.ok none,c')) : c' = c := by
  unfold tryNextResponse at h
  split at h
  · split at h <;> cases h
    rfl
  · rename_i idx found
    cases parsed : parseResponse (c.buf.take idx) <;> rw [parsed] at h <;> cases h

/- A response looked for while sending: none yet, with interim heads passed over, or the
final one. -/
def Watched (s : Bytes) (conn : Conn) : Option Response → Prop
  | none => Skips s conn.unread
  | some r => ∃ raw, FinalHead s raw conn.unread ∧ parseResponse raw = .ok r

/- A statement about the connection and the response found on it so far that holds on while
a response is looked for. -/
structure Watches (K : Conn → Option Response → Prop) : Prop where
  more : ∀ {c c' n}, K c none → readMore c = (.ok n,c') → K c' none
  passed : ∀ {c c' r}, K c none → tryNextResponse c = (.ok (some r),c') →
    isInterimResponseStatus r.head.status = true → K c' none
  found : ∀ {c c' r}, K c none → tryNextResponse c = (.ok (some r),c') →
    isInterimResponseStatus r.head.status = false → K c' (some r)

theorem watchedWatches (s : Bytes) : Watches (Watched s) where
  more before read := by
    rw [Watched,fillBufUnread read]
    exact before
  passed before taken interim := by
    obtain ⟨raw,place,parsed⟩ := tryNextResponseAt taken
    have kind := headStep place parsed
    rw [if_pos interim] at kind
    exact Skips.trans before kind
  found before taken final := by
    obtain ⟨raw,place,parsed⟩ := tryNextResponseAt taken
    have kind := headStep place parsed
    rw [if_neg (Bool.eq_false_iff.mp final)] at kind
    exact ⟨raw,before _ _ kind,parsed⟩

section
variable {K : Conn → Option Response → Prop} (watches : Watches K)
include watches

theorem takeBufferedWatched {fuel seen seen'} {c c' r} (before : K c none)
    (h : takeBufferedLoop fuel seen c = (.ok r,seen',c')) : K c' r := by
  induction fuel generalizing seen c with
  | zero => cases h
  | succ fuel ih =>
    unfold takeBufferedLoop at h
    split at h
    · rename_i r1 c1 taken
      split at h
      · rename_i passed
        split at h
        · cases h
        · exact ih (watches.passed before taken passed) h
      · rename_i final
        cases h
        exact watches.found before taken (Bool.eq_false_iff.mpr final)
    · rename_i c1 nothing
      cases tryNextResponseStays nothing
      cases h
      exact before
    · cases h

theorem pollEarlyWatched {fuel seen seen'} {be be' r} (before : K be.conn none)
    (h : pollEarlyLoop fuel seen be = (.ok r,seen',be')) : K be'.conn r := by
  induction fuel generalizing seen be with
  | zero => cases h
  | succ fuel ih =>
    unfold pollEarlyLoop at h
    split at h
    · rename_i seen1 conn taken
      have passed := takeBufferedWatched watches before taken
      split at h
      · split at h
        · cases h
        · cases h
        · rename_i n conn1 more
          exact ih (watches.more passed more) h
      · cases h
        exact passed
    · rename_i r1 seen1 conn _ taken
      cases h
      exact takeBufferedWatched watches before taken

end

def ForwardOutcome.response : ForwardOutcome → Option Response
  | .completed pending => pending
  | .earlyResponse r => some r

/- A failed write makes the code look behind a pending response; without one, or when the
request was sent completely, that does not happen. -/
def Straight (out : Sink) (o : ForwardOutcome) : Prop := out.Sound ∨ ∃ pending, o = .completed pending

section
variable {σ : Type} {next : σ → Option (Except HttpError Bytes) × σ} {K : Conn → Option Response → Prop}
  (watches : Watches K)
include watches

theorem watchBackendWatched {watch : Bool} {u u' : Upload σ} {r : Option Response}
    (before : K u.backend.conn u.pending) (h : watchBackend watch u = (.ok r,u')) :
    K u'.backend.conn (r.orElse (fun _ => u'.pending)) := by
  unfold watchBackend at h
  split at h
  · rename_i looks
    have quiet : u.pending = none := by
      simp only [Bool.and_eq_true,Option.isNone_iff_eq_none] at looks
      exact looks.2
    rw [quiet] at before
    split at h
    · cases h
    · rename_i polled
      cases h
      simp only [Option.orElse_none,quiet]
      exact pollEarlyWatched watches before polled
    · rename_i r1 seen be polled
      have found := pollEarlyWatched watches before polled
      split at h
      · cases h; exact found
      · cases h; exact found
  · cases h
    exact before

omit watches in
theorem uploadEndWatched {chunked : Bool} {u u' : Upload σ} {o : ForwardOutcome}
    (straight : Straight u.backend.out o) (before : K u.backend.conn u.pending)
    (h : uploadEnd chunked u = (.ok o,u')) : K u'.backend.conn o.response := by
  unfold uploadEnd at h
  split at h
  · split at h
    · rename_i failed
      rcases straight with sound | ⟨pending,rfl⟩
      · cases (writeAllSound sound failed).1
      · exact absurd h uploadWriteFailedIncomplete
    · cases h
      exact before
  · cases h
    exact before

theorem forwardLoopWatched {limit : Option Nat} {watch chunked : Bool} {fuel} {u u' : Upload σ} {o : ForwardOutcome}
    (straight : Straight u.backend.out o) (before : K u.backend.conn u.pending)
    (h : forwardLoop next limit watch chunked fuel u = (.ok o,u')) : K u'.backend.conn o.response := by
  induction fuel generalizing u with
  | zero => cases h
  | succ fuel ih =>
    unfold forwardLoop at h
    split at h
    · rename_i source last
      exact uploadEndWatched (u := {u with source}) straight before h
    · cases h
    · split at h
      · cases h
      · rename_i bytesSeen counted
        split at h
        · cases h
        · rename_i watched
          cases h
          exact watchBackendWatched watches (u := {u with source := _,bytesSeen}) before watched
        · rename_i u1 watched
          have still := watchBackendWatched watches (u := {u with source := _,bytesSeen}) before watched
          have same := (watchBackendKeeps watched).2
          rw [← same] at straight
          split at h
          · rename_i failed
            rcases straight with sound | ⟨pending,rfl⟩
            · cases (writePieceSound sound failed).1
            · exact absurd h uploadWriteFailedIncomplete
          · rename_i wrote
            refine ih ?_ ?_ h
            · exact straight.imp_left (fun sound => (writePieceSound sound wrote).2)
            · exact still

end

theorem sendRequestWatched {sendBody watch limit head inbound backend u o} {K : Conn → Option Response → Prop}
    (watches : Watches K) (straight : Straight backend.out o) (before : K backend.conn none)
    (h : sendRequest sendBody limit watch head inbound backend = (.ok o,u)) : K u.backend.conn o.response := by
  unfold sendRequest sendMessage at h
  split at h
  · cases h
  · rename_i out wrote
    have straight := straight.imp_left (fun sound => (writeAllSound sound wrote).2)
    split at h
    · split at h
      · rename_i outcome u1 forwarded
        cases h
        unfold forwardRequestBody at forwarded
        split at forwarded
        · cases forwarded; exact before
        · cases forwarded
        · refine forwardLoopWatched watches ?_ ?_ forwarded
          · exact straight
          · exact before
      · cases h
    · cases h
      exact before

theorem readResponseAt {x s pending conn conn' r} (before : Watched s conn pending)
    (h : readResponse x pending conn = (.ok r,conn')) : ∃ raw, FinalHead s raw conn'.unread ∧
      ReadAs (canUseRawFixedProxyResponse x.rules x.isWsRequest x.headOnly && pending.isNone) raw r := by
  unfold readResponse at h
  cases pending with
  | some early =>
    cases h
    obtain ⟨raw,final,parsed⟩ := before
    exact ⟨raw,final,parsed,by simp⟩
  | none =>
    dsimp only at h
    split at h
    · rename_i fast
      split at h
      · rename_i r1 c1 read
        cases h
        obtain ⟨raw,final,as⟩ := nextFinalFastAt read
        exact ⟨raw,before _ _ final,by simpa [fast] using as⟩
      · cases h
    · rename_i slow
      split at h
      · rename_i r1 c1 read
        cases h
        obtain ⟨raw,final,parsed⟩ := nextFinalResponseAt read
        exact ⟨raw,before _ _ final,parsed,by simp [slow]⟩
      · cases h

end ZeroServe.Proxy
