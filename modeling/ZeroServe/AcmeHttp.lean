import ZeroServe.DecimalText
import ZeroServe.HeadPrint
import ZeroServe.ProxyLine

/-! The responses of an ACME server: read until the close and cut at the first blank line, against the framing that
their fields announce. -/
namespace ZeroServe.AcmeHttp
open ByteText ChunkCoding WireMessage H1 ProxyProtocol DecimalText

def maxResponse : Nat := 4 * 1024 * 1024

structure HttpResponse where
  status : Nat
  headers : List (Bytes × Bytes)
  body : Bytes
  deriving DecidableEq

def parseResponse (raw : Bytes) : Option HttpResponse := do
  let split ← find (crlf ++ crlf) raw
  let head := raw.take split
  if ! validUtf8 head then none else
  let lines := splitCrlf head
  let statusLine ← lines.head?
  let word ← (splitWhitespace statusLine)[1]?
  let status ← fromStrRadix 10 65536 word
  let headers := lines.tail.filterMap fun line => (splitOnce 58 line).map fun f => (strTrim f.1,strTrim f.2)
  some ⟨status,headers,raw.drop (split + 4)⟩

/- `none` is the bound passed. -/
def readResponse (acc : Bytes) : List Bytes → Option Bytes
  | [] => some acc
  | buf::later =>
    if buf = [] then some acc
    else if maxResponse < (acc ++ buf).length then none
    else readResponse (acc ++ buf) later

def request (reads : List Bytes) : Option HttpResponse := (readResponse [] reads).bind parseResponse

/- A response as its server sends it. -/
structure Sent where
  status : Bytes
  reason : Bytes
  fields : List (Bytes × Bytes)
  body : Bytes

def Sent.start (s : Sent) : Bytes := ascii "HTTP/1.1" ++ 32::(s.status ++ 32::s.reason)
def Sent.lines (s : Sent) : List Bytes := s.fields.map fun f => f.1 ++ 58::f.2
def Sent.head (s : Sent) : Bytes := crlf.intercalate (s.start::s.lines)
def Sent.wire (s : Sent) : Bytes := s.head ++ (crlf ++ crlf) ++ s.body
def Sent.interim (s : Sent) : Bool := s.status.head? == some 49

/- These end at their blank line, whatever their fields announce. -/
def Sent.bodyless (method : Bytes) (s : Sent) : Bool :=
  method == ascii "HEAD" || s.interim || s.status == ascii "204" || s.status == ascii "304"

def Sent.framing (number : Bytes → Option Nat) (method : Bytes) (s : Sent) : Option Framing :=
  if s.bodyless method then some (.length 0)
  else headFraming number ⟨s.start,s.fields.map fun f => (lower f.1,trimAscii f.2)⟩

structure Sent.WellFormed (s : Sent) : Prop where
  digits : s.status.length = 3 ∧ ∀ b ∈ s.status, decimalDigit b
  reason : (13 : UInt8) ∉ s.reason
  fields : ∀ l ∈ s.lines, (13 : UInt8) ∉ l

/- What a server sends for one request: any number of interim responses and the final one. -/
structure Stream where
  interim : List Sent
  final : Sent

def Stream.wire (m : Stream) : Bytes := m.interim.flatMap Sent.wire ++ m.final.wire

structure Stream.WellFormed (m : Stream) : Prop where
  interim : ∀ s ∈ m.interim, s.WellFormed ∧ s.interim = true ∧ s.body = []
  final : m.final.WellFormed ∧ m.final.interim = false

/- The first head and all that follows it. -/
def Stream.first (m : Stream) : Sent :=
  match m.interim with
  | [] => m.final
  | s::later => { s with body := later.flatMap Sent.wire ++ m.final.wire }

/- What a body of this framing carries; without framing it lasts until the close. -/
def Delimits (size : Bytes → Option Nat) (body payload : Bytes) : Framing → Prop
  | .none => payload = body
  | .chunked => Coded size body payload []
  | .length n => payload = body ∧ body.length = n

/- The connection is closed before the announced length or the last chunk. -/
def Truncated (size : Bytes → Option Nat) (body : Bytes) : Framing → Prop
  | .none => False
  | .chunked => ∃ more payload, more ≠ [] ∧ Coded size (body ++ more) payload []
  | .length n => body.length < n

theorem codedLonger {size : Bytes → Option Nat} {s p r} (coded : Coded size s p r) : p.length < s.length := by
  induction coded with
  | last => simp [crlf]
  | chunk _ _ _ _ ih =>
    simp [crlf]
    omega

theorem wordsPlain {word} (fuel : Nat) (acc rest : Bytes) (plain : ∀ b ∈ word, plainByte b = true ∧ asciiWhitespace b = false) :
    wordsFrom (word.length + fuel) acc (word ++ rest) = wordsFrom fuel (acc ++ word) rest := by
  induction word generalizing acc with
  | nil => simp
  | cons b word ih =>
    obtain ⟨here,later⟩ := List.forall_mem_cons.mp plain
    rw [List.length_cons,Nat.succ_add,List.cons_append,wordsFrom,frontTrims b here.1,here.2]
    simpa using ih (acc ++ [b]) later

theorem wordsBlank {acc} (fuel : Nat) (rest : Bytes) (word : acc ≠ []) :
    wordsFrom (fuel + 1) acc (32::rest) = acc::wordsFrom fuel [] rest := by
  exact if_neg word

variable {s : Sent}

theorem statusWord (well : s.WellFormed) : (splitWhitespace s.start)[1]? = some s.status := by
  have digit : ∀ b, decimalDigit b → plainByte b = true ∧ asciiWhitespace b = false := by decide +kernel
  have version : ∀ b ∈ ascii "HTTP/1.1", plainByte b = true ∧ asciiWhitespace b = false := by decide +kernel
  have filled : s.status ≠ [] := by
    intro empty
    have three := well.digits.1
    rw [empty] at three
    cases three
  rw [splitWhitespace,Sent.start,List.length_append,wordsPlain _ _ _ version,List.length_cons,wordsBlank _ _ (by decide +kernel),
    List.length_append,wordsPlain _ _ _ fun b mem => digit b (well.digits.2 b mem),List.length_cons,wordsBlank _ _ (by simpa using filled)]
  simp

theorem statusRead (well : s.WellFormed) : ∃ status, fromStrRadix 10 65536 s.status = some status := by
  obtain ⟨three,digits⟩ := well.digits
  obtain ⟨a,b,c,shape⟩ := List.length_eq_three.mp three
  rw [shape] at digits ⊢
  have read : ∀ d, decimalDigit d → ∃ n < 10, digitVal 10 d = some n ∧ d ≠ 43 := by decide +kernel
  obtain ⟨i,_,first,sign⟩ := read a (digits a (by simp))
  obtain ⟨j,_,second,_⟩ := read b (digits b (by simp))
  obtain ⟨k,_,third,_⟩ := read c (digits c (by simp))
  refine ⟨((i * 10) + j) * 10 + k,?_⟩
  simp [fromStrRadix,sign,readDigits,first,second,third]
  omega

theorem headLines (well : s.WellFormed) : ∀ l ∈ s.start::s.lines, l ≠ [] ∧ (13 : UInt8) ∉ l := by
  have digit : ∀ b, decimalDigit b → b ≠ 13 := by decide +kernel
  rw [List.forall_mem_cons]
  constructor
  · refine ⟨by simp [Sent.start],?_⟩
    have version : (13 : UInt8) ∉ ascii "HTTP/1.1" := by decide +kernel
    have status : (13 : UInt8) ∉ s.status := fun mem => digit 13 (well.digits.2 13 mem) rfl
    simp [Sent.start,version,status,well.reason]
  · intro l mem
    obtain ⟨f,_,rfl⟩ := List.mem_map.mp mem
    exact ⟨by simp,well.fields _ mem⟩

theorem parseWire (well : s.WellFormed) : (parseResponse s.wire).map HttpResponse.body =
    if validUtf8 s.head then some s.body else none := by
  have cut : find (crlf ++ crlf) s.wire = some s.head.length := blankFound s.body (headLines well)
  obtain ⟨status,read⟩ := statusRead well
  have first : (splitCrlf s.head).head? = some s.start := by
    rw [Sent.head,splitJoined fun l mem => crlfFreeOfNoCr (headLines well l mem).2,List.head?_cons]
  rw [parseResponse,cut]
  have head : s.wire.take s.head.length = s.head := by simp [Sent.wire]
  have body : s.wire.drop (s.head.length + 4) = s.body := by
    rw [Sent.wire,show s.head.length + 4 = (s.head ++ (crlf ++ crlf)).length by simp [crlf],List.drop_left]
  simp only [bind,Option.bind_some,head,body,first,statusWord well,read]
  cases validUtf8 s.head <;> rfl

theorem firstWire {m : Stream} (well : m.WellFormed) : m.first.wire = m.wire ∧ m.first.WellFormed := by
  obtain ⟨interim,final⟩ := m
  cases interim with
  | nil => exact ⟨rfl,well.final.1⟩
  | cons s later =>
    obtain ⟨⟨digits,reason,fields⟩,-,empty⟩ := well.interim s List.mem_cons_self
    refine ⟨?_,digits,reason,fields⟩
    simp [Stream.first,Stream.wire,Sent.wire,Sent.head,Sent.start,Sent.lines,empty]

theorem readWhole {acc reads} (filled : [] ∉ reads) (small : (acc ++ reads.flatten).length ≤ maxResponse) :
    readResponse acc reads = some (acc ++ reads.flatten) := by
  induction reads generalizing acc with
  | nil => simp [readResponse]
  | cons buf later ih =>
    rw [List.mem_cons,not_or] at filled
    rw [List.flatten_cons,← List.append_assoc] at small ⊢
    rw [readResponse,if_neg (Ne.symm filled.1),if_neg (by rw [List.length_append] at small; omega),ih filled.2 small]

def Carries (number size : Bytes → Option Nat) (method : Bytes) (s : Sent) (payload : Bytes) : Prop :=
  ∃ f, s.framing number method = some f ∧ Delimits size s.body payload f

def CutShort (number size : Bytes → Option Nat) (method : Bytes) (s : Sent) : Prop :=
  ∃ f, s.framing number method = some f ∧ Truncated size s.body f

theorem carriedShort {number size : Bytes → Option Nat} {method payload} (carried : Carries number size method s payload) :
    payload.length < s.wire.length := by
  have inside : payload.length ≤ s.body.length := by
    obtain ⟨f,-,delimits⟩ := carried
    cases f with
    | none => exact le_of_eq (congrArg _ delimits)
    | length n => exact le_of_eq (congrArg _ delimits.1)
    | chunked => exact le_of_lt (codedLonger delimits)
  simp [Sent.wire,crlf]
  omega

theorem interimOther {number size : Bytes → Option Nat} {method payload} {m : Stream} (some : m.interim ≠ [])
    (carried : Carries number size method m.final payload) : m.first.body ≠ payload := by
  obtain ⟨interim,final⟩ := m
  cases interim with
  | nil => exact absurd rfl some
  | cons s later =>
    intro same
    have short := carriedShort carried
    rw [← same] at short
    simp [Stream.first] at short

/- Complete responses with a readable head come through unless chunked or behind an interim one; truncated ones are
not refused for it. -/
theorem acmeBodyExact {number size : Bytes → Option Nat} {method} {m : Stream} {reads} (well : m.WellFormed)
    (filled : [] ∉ reads) (sent : reads.flatten = m.wire) (small : m.wire.length ≤ maxResponse) :
    (∀ payload, Carries number size method m.final payload → ((request reads).map HttpResponse.body = some payload ↔
      validUtf8 m.final.head = true ∧ m.final.framing number method ≠ some .chunked ∧ m.interim = [])) ∧
    (CutShort number size method m.final → (request reads = none ↔ validUtf8 m.first.head = false)) := by
  obtain ⟨whole,firstWell⟩ := firstWire well
  have got : (request reads).map HttpResponse.body = if validUtf8 m.first.head then some m.first.body else none := by
    rw [request,readWhole filled (by rwa [sent]),Option.bind_some,List.nil_append,sent,← whole,parseWire firstWell]
  constructor
  · intro payload carried
    by_cases plain : m.interim = []
    · have only : m.first = m.final := by simp [Stream.first,plain]
      obtain ⟨f,kind,delimits⟩ := carried
      rw [got,kind,only]
      cases f with
      | none =>
        cases delimits
        simp [plain]
      | length n =>
        cases delimits.1
        simp [plain]
      | chunked =>
        have other : m.final.body ≠ payload := fun same => Nat.lt_irrefl _ (same ▸ codedLonger delimits)
        simp [other]
    · rw [got]
      simp [plain,interimOther plain carried]
  · intro _
    rw [← Option.map_eq_none_iff (f := HttpResponse.body),got]
    simp

def reply (name value : Bytes) (body : Bytes) : Sent := ⟨ascii "200",ascii "OK",[(name,value)],body⟩

theorem lengthReplyRead :
    (request [(reply (ascii "Content-Length") (ascii "1") (ascii "a")).wire]).map HttpResponse.body = some (ascii "a") :=
  ((@acmeBodyExact decimalValue decimalValue (ascii "GET") ⟨[],reply (ascii "Content-Length") (ascii "1") (ascii "a")⟩ [_]
    ⟨nofun,⟨by decide +kernel,by decide +kernel,by decide +kernel⟩,by decide +kernel⟩ (by decide +kernel)
    (List.flatten_singleton) (by decide +kernel)).1
      (ascii "a") ⟨.length 1,by decide +kernel,rfl,rfl⟩).mpr (by decide +kernel)

/- A chunked body is returned as it is coded, and one that is cut short is returned too. -/
theorem framingIgnored :
    (request [(reply (ascii "Transfer-Encoding") (ascii "chunked") (ascii "1\r\na\r\n0\r\n\r\n")).wire]).map HttpResponse.body =
      some (ascii "1\r\na\r\n0\r\n\r\n") ∧
    (request [(reply (ascii "Content-Length") (ascii "2") (ascii "a")).wire]).map HttpResponse.body = some (ascii "a") := by
  decide +kernel

end ZeroServe.AcmeHttp
