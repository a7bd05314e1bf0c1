import ZeroServe.FieldMap

/-! Header names, values and maps as the `http` crate keeps them, and the questions
`http/h1.rs` asks of a map. A name is a lower-case token and a value has no control
byte but the tab, so no map can hold a line end. -/
namespace ZeroServe.H1
open ByteText

def tokenByte (b : UInt8) : Bool :=
  (48 ≤ b && b ≤ 57) || (65 ≤ b && b ≤ 90) || (97 ≤ b && b ≤ 122) ||
  [33,35,36,37,38,39,42,43,45,46,94,95,96,124,126].contains b

def headerNameText (s : Bytes) : Bool :=
  s != [] && s.length ≤ 65535 && s.all (fun b => tokenByte b && lowerByte b == b)

structure HeaderName where
  text : Bytes
  valid : headerNameText text = true
  deriving DecidableEq

def HeaderName.fromBytes (s : Bytes) : Option HeaderName :=
  if h : headerNameText (lower s) = true then some ⟨lower s,h⟩ else none

def valueByte (b : UInt8) : Bool := (32 ≤ b && b != 127) || b == 9
def visibleByte (b : UInt8) : Bool := (32 ≤ b && b < 127) || b == 9

structure HeaderValue where
  bytes : Bytes
  valid : bytes.all valueByte = true
  deriving DecidableEq

def HeaderValue.fromBytes (s : Bytes) : Option HeaderValue :=
  if h : s.all valueByte = true then some ⟨s,h⟩ else none

def HeaderValue.toStr (v : HeaderValue) : Option Bytes :=
  if v.bytes.all visibleByte then some v.bytes else none

abbrev HeaderMap := FieldMap HeaderName HeaderValue

namespace HeaderName
def ofAscii (s : String) (h : headerNameText (ascii s) = true := by exact Eq.refl true) : HeaderName :=
  ⟨ascii s,h⟩
def altSvc := ofAscii "alt-svc"
def connection := ofAscii "connection"
def contentEncoding := ofAscii "content-encoding"
def contentLength := ofAscii "content-length"
def contentType := ofAscii "content-type"
def cookie := ofAscii "cookie"
def etag := ofAscii "etag"
def expect := ofAscii "expect"
def host := ofAscii "host"
def keepAlive := ofAscii "keep-alive"
def proxyAuthenticate := ofAscii "proxy-authenticate"
def proxyAuthorization := ofAscii "proxy-authorization"
def proxyConnection := ofAscii "proxy-connection"
def server := ofAscii "server"
def te := ofAscii "te"
def trailer := ofAscii "trailer"
def transferEncoding := ofAscii "transfer-encoding"
def upgrade := ofAscii "upgrade"
def xForwardedFor := ofAscii "x-forwarded-for"
def xForwardedHost := ofAscii "x-forwarded-host"
def xForwardedProto := ofAscii "x-forwarded-proto"
end HeaderName

def HeaderValue.ofAscii (s : String)
    (h : (ascii s).all valueByte = true := by exact Eq.refl true) : HeaderValue := ⟨ascii s,h⟩

def listParts (s : Bytes) : List Bytes := (s.splitOn 44).map strTrim

def valueHasToken (token : Bytes) (v : HeaderValue) : Bool :=
  match v.toStr with
  | some s => (listParts s).any (eqIgnoreAsciiCase · token)
  | none => false

def hasChunked (headers : HeaderMap) : Bool :=
  match headers.get .transferEncoding with
  | some v => valueHasToken (ascii "chunked") v
  | none => false

/- `value.to_str().ok()?.trim().parse().ok()` at u64. -/
def lengthValue (v : HeaderValue) : Option Nat := do
  let s ← v.toStr
  fromStrRadix 10 (2^64) (strTrim s)

def contentLength (headers : HeaderMap) : Option Nat := do
  let v ← headers.get .contentLength
  lengthValue v

def headerContainsToken (headers : HeaderMap) (name : HeaderName) (token : Bytes) : Bool :=
  (headers.getAll name).any (valueHasToken token)

def headerEqIgnoreCase (headers : HeaderMap) (name : HeaderName) (value : Bytes) : Bool :=
  match (headers.get name).bind HeaderValue.toStr with
  | some s => eqIgnoreAsciiCase s value
  | none => false

def isWebsocketUpgradeRequest (headers : HeaderMap) : Bool :=
  headerContainsToken headers .connection (ascii "upgrade") &&
  headerEqIgnoreCase headers .upgrade (ascii "websocket")

/- Joining with "; " stays a valid value, so the source's `expect` cannot fire. -/
def cookieJoin (first : HeaderValue) : List HeaderValue → HeaderValue
  | [] => first
  | next::rest => cookieJoin ⟨first.bytes ++ [59,32] ++ next.bytes,by
      have a := first.valid
      have b := next.valid
      simp only [List.all_append,a,b]; decide⟩ rest

def normalizeCookieHeaders (headers : HeaderMap) : HeaderMap :=
  match headers.getAll .cookie with
  | first::second::rest => headers.insert .cookie (cookieJoin first (second::rest))
  | _ => headers

theorem nameBytes (n : HeaderName) : ∀ b ∈ n.text, tokenByte b = true := by
  have h := n.valid
  simp only [headerNameText,Bool.and_eq_true,List.all_eq_true] at h
  intro b mem
  exact (h.2 b mem).1

theorem nameLower (n : HeaderName) : lower n.text = n.text := by
  have h := n.valid
  simp only [headerNameText,Bool.and_eq_true,List.all_eq_true,beq_iff_eq] at h
  conv => rhs; rw [← List.map_id n.text]
  exact List.map_congr_left (fun b mem => (h.2 b mem).2)

theorem valueBytes (v : HeaderValue) : ∀ b ∈ v.bytes, valueByte b = true :=
  List.all_eq_true.mp v.valid

theorem nameExt {a b : HeaderName} (h : a.text = b.text) : a = b := by
  cases a; cases b; simpa using h

theorem fromBytesText {s n} (h : HeaderName.fromBytes s = some n) : n.text = lower s := by
  unfold HeaderName.fromBytes at h
  split at h <;> try contradiction
  cases Option.some.inj h
  rfl

theorem valueFromBytes {s v} (h : HeaderValue.fromBytes s = some v) : v.bytes = s := by
  unfold HeaderValue.fromBytes at h
  split at h <;> try contradiction
  cases Option.some.inj h
  rfl

theorem visiblePlain : ∀ b : UInt8, visibleByte b = true → plainByte b = true := by decide +kernel

theorem hiddenByte : ∀ b : UInt8, valueByte b = true → visibleByte b = false →
    digitVal 10 b = none ∧ b ≠ 43 ∧ asciiWhitespace b = false := by decide +kernel

theorem lengthValueWire (v : HeaderValue) : fromStrRadix 10 (2^64) (trimAscii v.bytes) = lengthValue v := by
  unfold lengthValue HeaderValue.toStr
  split
  · rename_i visible
    have plain : ∀ b ∈ v.bytes, plainByte b = true := fun b mem =>
      visiblePlain b (List.all_eq_true.mp visible b mem)
    simp [strTrimPlain plain]
  · rename_i hidden
    obtain ⟨b,mem,hid⟩ : ∃ b ∈ v.bytes, visibleByte b = false := by
      simpa using hidden
    obtain ⟨bad,sign,stop⟩ := hiddenByte b (valueBytes v b mem) hid
    rw [fromStrRadixBad (memTrimAscii mem stop) bad sign]
    rfl

end ZeroServe.H1
