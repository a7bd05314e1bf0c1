import ZeroServe.HeadPrint

/-! Reading a message head against the cuts of its stream: `next_request` and `next_response` on
two connections that deliver the same bytes. -/
namespace ZeroServe.H1
open ByteText ByteSource

def SameRead {α : Type} : Except HttpError (Option α) × Conn → Except HttpError (Option α) × Conn → Prop
  | (.ok a,c),(.ok b,d) => a = b ∧ c.unread = d.unread
  | (.error _,_),(.error _,_) => True
  | _,_ => False

def nextMessage {α : Type} (parse : Bytes → Except HttpError α) (c : Conn) :
    Except HttpError (Option α) × Conn :=
  match readHeaders c with
  | (.error e,c) => (.error e,c)
  | (.ok none,c) => (.ok none,c)
  | (.ok (some raw),c) => ((parse raw).map some,c)

def parseRequest (parseUri : Bytes → Option Uri) (raw : Bytes) : Except HttpError Request :=
  (parseRequestHead parseUri raw).map fun head => ⟨head,requestBodyFromHeaders head⟩

theorem requestIsMessage (parseUri : Bytes → Option Uri) (c : Conn) :
    nextRequest parseUri c = nextMessage (parseRequest parseUri) c := by
  unfold nextRequest nextMessage parseRequest
  cases readHeaders c with
  | mk r c =>
    cases r with
    | error e => rfl
    | ok raw =>
      cases raw with
      | none => rfl
      | some raw =>
        dsimp only
        cases parseRequestHead parseUri raw <;> rfl

theorem responseIsMessage (c : Conn) : nextResponse c = nextMessage parseResponse c := rfl

section
variable {α : Type} {parse : Bytes → Except HttpError α}

theorem messageTaken {c c' raw} (read : readHeaders c = (.ok (some raw),c')) :
    nextMessage parse c = ((parse raw).map some,c') := by
  rw [nextMessage,read]

theorem messageRefused {c c' e} (read : readHeaders c = (.error e,c')) : nextMessage parse c = (.error e,c') := by
  rw [nextMessage,read]

def CutsHidden (parse : Bytes → Except HttpError α) (stream : Bytes) : Prop :=
  ∀ idx, find blankLine stream = some idx → maxHeaderSize + 1 < idx + 4 →
    idx + 4 ≤ maxHeaderSize + readBufSize → ∃ e, parse (stream.take idx) = .error e

theorem sameTaken {stream raw c c' d d'} (first : readHeaders c = (.ok (some raw),c'))
    (second : readHeaders d = (.ok (some raw),d')) (left : c'.unread = stream) (left' : d'.unread = stream) :
    SameRead (nextMessage parse c) (nextMessage parse d) := by
  rw [messageTaken first,messageTaken second]
  cases parse raw with
  | error e => trivial
  | ok a => exact ⟨rfl,left.trans left'.symm⟩

theorem sameRefused {c c' d d' e e'} (first : nextMessage parse c = (.error e,c'))
    (second : nextMessage parse d = (.error e',d')) : SameRead (nextMessage parse c) (nextMessage parse d) := by
  rw [first,second]
  trivial

theorem messageFails {c idx} {e} (found : find blankLine c.unread = some idx)
    (bad : parse (c.unread.take idx) = .error e) : ∃ e' c', nextMessage parse c = (.error e',c') := by
  cases read : readHeaders c with
  | mk r c' =>
    have result := readUntilSpec read
    cases r with
    | error e' => exact ⟨e',c',messageRefused read⟩
    | ok raw =>
      cases raw with
      | none =>
        rw [result.1] at found
        cases found
      | some raw =>
        obtain ⟨cut,place⟩ := result
        cases Option.some.inj (found.symm.trans place)
        rw [cut,List.append_assoc,List.take_left] at bad
        exact ⟨e,c',by rw [messageTaken read,bad]; rfl⟩

theorem messageSplits (parse : Bytes → Except HttpError α) (stream : Bytes) :
    (∀ first second : Source, Steady first → Steady second → first.bytes = stream → second.bytes = stream →
      SameRead (nextMessage parse ⟨[],first⟩) (nextMessage parse ⟨[],second⟩)) ↔ CutsHidden parse stream := by
  constructor
  · intro agree idx found over_ near
    have filled : stream ≠ [] := by
      rintro rfl
      cases found
    obtain ⟨c',reached,_⟩ := headReached found near
    obtain ⟨e,d',refused⟩ := headDripped filled fun i same => by
      cases Option.some.inj (found.symm.trans same)
      exact over_
    have same := agree ⟨stream,[]⟩ (dripped stream).io (fun g mem => by cases mem)
      (drippedDrip stream).drips.steady rfl rfl
    rw [messageTaken reached,messageRefused (c := ⟨[],(dripped stream).io⟩) refused] at same
    cases parsed : parse (stream.take idx) with
    | error e => exact ⟨e,rfl⟩
    | ok a =>
      rw [parsed] at same
      exact same.elim
  · intro hidden first second steady steady' bytes bytes'
    have whole : (⟨[],first⟩ : Conn).unread = stream := bytes
    have whole' : (⟨[],second⟩ : Conn).unread = stream := bytes'
    by_cases empty : stream = []
    · obtain ⟨c',read,left⟩ := headNone steady (bytes.trans empty)
      obtain ⟨d',read',left'⟩ := headNone steady' (bytes'.trans empty)
      rw [nextMessage,nextMessage,read,read']
      exact ⟨rfl,left.trans left'.symm⟩
    · by_cases far : ∀ idx, find blankLine stream = some idx → maxHeaderSize + readBufSize < idx + 4
      · obtain ⟨e,c',read⟩ := headRefused steady (bytes ▸ empty) (bytes ▸ far)
        obtain ⟨e',d',read'⟩ := headRefused steady' (bytes' ▸ empty) (bytes' ▸ far)
        exact sameRefused (messageRefused read) (messageRefused read')
      · push Not at far
        obtain ⟨idx,found,near⟩ := far
        by_cases small : idx + 4 ≤ maxHeaderSize + 1
        · obtain ⟨c',read,left⟩ := headTaken (c := ⟨[],first⟩) steady (whole ▸ found) small
          obtain ⟨d',read',left'⟩ := headTaken (c := ⟨[],second⟩) steady' (whole' ▸ found) small
          rw [whole] at read left
          rw [whole'] at read' left'
          exact sameTaken read read' left left'
        · obtain ⟨e,bad⟩ := hidden idx found (Nat.lt_of_not_le small) near
          obtain ⟨_,_,failed⟩ := messageFails (c := ⟨[],first⟩) (whole ▸ found) (whole ▸ bad)
          obtain ⟨_,_,failed'⟩ := messageFails (c := ⟨[],second⟩) (whole' ▸ found) (whole' ▸ bad)
          exact sameRefused failed failed'

theorem cutsMapped {β : Type} (f : α → β) (stream : Bytes) :
    CutsHidden (fun raw => (parse raw).map f) stream ↔ CutsHidden parse stream := by
  refine forall_congr' fun idx => imp_congr_right fun _ => imp_congr_right fun _ => imp_congr_right fun _ => ?_
  rcases read : parse (stream.take idx) with e | value <;> simp [read,Except.map]

end

theorem headSplitsExact (parseUri : Bytes → Option Uri) (stream : Bytes) :
    ((∀ first second : Source, Steady first → Steady second → first.bytes = stream → second.bytes = stream →
        SameRead (nextRequest parseUri ⟨[],first⟩) (nextRequest parseUri ⟨[],second⟩)) ↔
      CutsHidden (parseRequestHead parseUri) stream) ∧
    ((∀ first second : Source, Steady first → Steady second → first.bytes = stream → second.bytes = stream →
        SameRead (nextResponse ⟨[],first⟩) (nextResponse ⟨[],second⟩)) ↔ CutsHidden parseResponseHead stream) := by
  refine ⟨?_,?_⟩
  · simp only [requestIsMessage]
    exact (messageSplits (parseRequest parseUri) stream).trans (cutsMapped _ stream)
  · exact (messageSplits parseResponse stream).trans (cutsMapped _ stream)

def longHead (n : Nat) : RequestHead where
  method := .get
  uri := Proxy.rootUri
  version := .http11
  headers := ⟨[(.etag,⟨List.replicate n 97,by simp [valueByte]⟩)]⟩

theorem longHeadParsed (n : Nat) : ∃ request, parseRequest Proxy.onlyRoot (headText (longHead n)) = .ok request := by
  have values : ∀ f ∈ (longHead n).headers.pairs, Unpadded f.2 := by
    intro f mem
    cases List.mem_singleton.mp mem
    intro b ends
    have letter := ends.elim List.mem_of_mem_head? List.mem_of_mem_getLast?
    cases (List.mem_replicate.mp letter).2
    decide
  have text : validUtf8 Proxy.rootUri.toString = true := by decide +kernel
  have uri : HttpUri Proxy.onlyRoot (longHead n).uri := ⟨⟨rfl,rfl⟩,text,Proxy.rootUri,rfl,rfl⟩
  obtain ⟨u,parsed,_⟩ := textParsed uri (.inr rfl) (Nat.zero_le 1) values
  exact ⟨_,by rw [parseRequest,parsed]; rfl⟩

theorem longHeadLength (n : Nat) : (headText (longHead n)).length = n + 22 := by
  have line : requestLine (longHead n) = ascii "GET / HTTP/1.1" := by
    change requestLine (longHead 0) = _
    decide +kernel
  have name : HeaderName.etag.text.length = 4 := by decide +kernel
  have size : (ascii "GET / HTTP/1.1").length = 14 := by decide +kernel
  have field : (longHead n).headers.pairs.map fieldText = [HeaderName.etag.text ++ [58,32] ++ List.replicate n 97] := rfl
  rw [headText,line,field]
  simp only [List.intercalate_cons_cons,List.intercalate_singleton,List.length_append,List.length_replicate,name,size]
  simp only [crlf,List.length_cons,List.length_nil]
  omega

theorem longHeadCut {n} (size : n = 2 ^ 16) : ∃ first second : Source, Steady first ∧ Steady second ∧
    first.bytes = encodeRequestHead (longHead n) ∧ second.bytes = encodeRequestHead (longHead n) ∧
    ¬ SameRead (nextRequest Proxy.onlyRoot ⟨[],first⟩) (nextRequest Proxy.onlyRoot ⟨[],second⟩) := by
  by_contra agree
  push Not at agree
  simp only [requestIsMessage] at agree
  have found := headTextFound (longHead n) []
  rw [List.append_nil] at found
  have over_ : maxHeaderSize + 1 < (headText (longHead n)).length + 4 := by
    rw [longHeadLength,size]
    decide
  have near : (headText (longHead n)).length + 4 ≤ maxHeaderSize + readBufSize := by
    rw [longHeadLength,size]
    decide
  obtain ⟨e,refused⟩ := (messageSplits (parseRequest Proxy.onlyRoot) _).mp agree _ found over_ near
  obtain ⟨request,parsed⟩ := longHeadParsed n
  rw [encodeIsText,List.take_left,parsed] at refused
  cases refused

theorem longHeadDepends : ∃ first second : Source, Steady first ∧ Steady second ∧
    first.bytes = encodeRequestHead (longHead (2 ^ 16)) ∧ second.bytes = encodeRequestHead (longHead (2 ^ 16)) ∧
    ¬ SameRead (nextRequest Proxy.onlyRoot ⟨[],first⟩) (nextRequest Proxy.onlyRoot ⟨[],second⟩) :=
  longHeadCut rfl

end ZeroServe.H1
