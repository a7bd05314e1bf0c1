import ZeroServe.AcceptEncoding
import ZeroServe.ProxyReply

/-! `EncodeState::decide` and the header changes of a compressed response. The sort inside the
negotiation and the compressors themselves are parameters. -/
namespace ZeroServe.Encode
open ByteText H1 Proxy

inductive Coding where
  | gzip
  | zstd
  deriving DecidableEq

def Coding.value : Coding → HeaderValue
  | .gzip => .ofAscii "gzip"
  | .zstd => .ofAscii "zstd"

def Coding.ofName (name : Bytes) : Option Coding :=
  if name = Coding.gzip.value.bytes then some .gzip
  else if name = Coding.zstd.value.bytes then some .zstd else none

inductive EncoderSpec where
  | gzip (level : Int)
  | zstd (level : Int) (checksum : Bool)
  deriving DecidableEq

/- No patterns at all: the field must be absent; an empty list: it must be there. -/
structure ResponseMatcher where
  statusCode : List Int
  headers : List (Bytes × Option (List Bytes))
  deriving DecidableEq

structure EncodeConfig where
  minLength : Nat
  prefer : List Bytes
  encoders : Coding → Option EncoderSpec
  matcher : ResponseMatcher

def statusCodeMatches (actual configured : Int) : Bool :=
  actual = configured ||
    (decide (configured < 100) && decide (configured * 100 ≤ actual) && decide (actual < (configured + 1) * 100))

def star : UInt8 := 42

def headerValueMatches (actual pattern : Bytes) : Bool :=
  if pattern = [star] then true else
  let starts := pattern.head? = some star
  let ends := pattern.getLast? = some star
  if starts ∧ ends then (find (pattern.drop 1).dropLast actual).isSome
  else if starts then (pattern.drop 1).isSuffixOf actual
  else if ends then pattern.dropLast.isPrefixOf actual
  else actual = pattern

def fieldMatches (actual : List Bytes) : Option (List Bytes) → Bool
  | none => actual = []
  | some [] => actual ≠ []
  | some patterns => actual.any fun value => patterns.any (headerValueMatches value)

def fieldValues (headers : HeaderMap) (field : Bytes) : List Bytes :=
  match HeaderName.fromBytes field with
  | some name => (headers.getAll name).filterMap HeaderValue.toStr
  | none => []

def ResponseMatcher.matchStatus (m : ResponseMatcher) (status : Nat) : Bool :=
  m.statusCode = [] || m.statusCode.any (statusCodeMatches status)

def ResponseMatcher.matches (m : ResponseMatcher) (status : Nat) (headers : HeaderMap) : Bool :=
  m.matchStatus status && m.headers.all fun entry => fieldMatches (fieldValues headers entry.1) entry.2

def cacheControl : HeaderName := .ofAscii "cache-control"
def acceptRanges : HeaderName := .ofAscii "accept-ranges"
def vary : HeaderName := .ofAscii "vary"

def encodeAllowed (control : Option Bytes) : Bool := (find (ascii "no-transform") (control.getD [])).isNone

section
variable (sort : (α : Type) → (α → α → Ordering) → List α → List α)

def EncodeConfig.negotiate (config : EncodeConfig) (acceptEncoding secWebsocketKey : Bytes) :
    Option (Coding × EncoderSpec) :=
  (acceptedEncodings sort acceptEncoding secWebsocketKey config.prefer).findSome? fun name =>
    (Coding.ofName name).bind fun coding => (config.encoders coding).map (coding,·)

structure Negotiation where
  config : EncodeConfig
  acceptEncoding : Bytes
  secWebsocketKey : Bytes

def Negotiation.decide (n : Negotiation) (status : Nat) (headers : HeaderMap) (contentLength : Option Nat) :
    Option (Coding × EncoderSpec) :=
  if (headers.get .contentEncoding).any (·.bytes ≠ []) then none
  else if ! encodeAllowed ((headers.get cacheControl).bind HeaderValue.toStr) then none
  else if ! n.config.matcher.matches status headers then none
  else
    match n.config.negotiate sort n.acceptEncoding n.secWebsocketKey with
    | none => none
    | some chosen => if contentLength.any (· ≤ n.config.minLength) then none else some chosen

def varyHasAcceptEncoding (headers : HeaderMap) : Bool :=
  headerContainsToken headers vary (ascii "accept-encoding")

def suffixEtag (coding : Coding) (headers : HeaderMap) : HeaderMap :=
  match (headers.get .etag).bind HeaderValue.toStr with
  | none => headers
  | some etag =>
    if (ascii "W/").isPrefixOf etag then headers else
    let trimmed := if etag.getLast? = some 34 then etag.dropLast else etag
    match HeaderValue.fromBytes (trimmed ++ [45] ++ coding.value.bytes ++ [34]) with
    | some value => headers.insert .etag value
    | none => headers

def applyEncodingHeaders (coding : Coding) (headers : HeaderMap) : HeaderMap :=
  let headers := (headers.remove .contentLength).insert .contentEncoding coding.value
  let headers := if varyHasAcceptEncoding headers then headers
    else headers.append vary (.ofAscii "Accept-Encoding")
  suffixEtag coding (headers.remove acceptRanges)

structure Codec where
  ready : Bool
  push : List Bytes → Bytes → Option Bytes
  finish : List Bytes → Option Bytes

variable (codec : EncoderSpec → Codec)

def encoderOf (chosen : Coding × EncoderSpec) : Encoder :=
  ⟨applyEncodingHeaders chosen.1,(codec chosen.2).ready,(codec chosen.2).push,(codec chosen.2).finish⟩

def Negotiation.state (n : Negotiation) : EncodeState :=
  ⟨fun status headers length => (n.decide sort status headers length).map (encoderOf codec),n.config.minLength⟩

end

theorem getSame {a b : HeaderMap} (same : ∀ name, a.getAll name = b.getAll name) (name : HeaderName) :
    a.get name = b.get name := by
  rw [FieldMap.get,FieldMap.get,same]

theorem matchesSame {a b} (same : ∀ name, a.getAll name = b.getAll name) (m : ResponseMatcher) (status : Nat) :
    m.matches status a = m.matches status b := by
  have values (field : Bytes) : fieldValues a field = fieldValues b field := by
    unfold fieldValues
    split
    · rw [same]
    · rfl
  simp only [ResponseMatcher.matches,values]

theorem decideSame (sort : (α : Type) → (α → α → Ordering) → List α → List α) (n : Negotiation) {a b : HeaderMap}
    (same : ∀ name, a.getAll name = b.getAll name) (status : Nat) (length : Option Nat) :
    n.decide sort status a length = n.decide sort status b length := by
  rw [Negotiation.decide,Negotiation.decide,getSame same,getSame same,matchesSame same]

theorem encodedCoding (coding : Coding) (headers : HeaderMap) :
    (applyEncodingHeaders coding headers).getAll .contentEncoding = [coding.value] := by
  have other : HeaderName.contentEncoding ≠ vary ∧ HeaderName.contentEncoding ≠ acceptRanges ∧
    HeaderName.contentEncoding ≠ .etag := by decide +kernel
  have tagged (headers : HeaderMap) :
      (suffixEtag coding headers).getAll .contentEncoding = headers.getAll .contentEncoding := by
    unfold suffixEtag
    split
    · rfl
    · split
      · rfl
      · dsimp only
        split
        · exact FieldMap.getAllInsertOther _ _ other.2.2
        · rfl
  rw [applyEncodingHeaders,tagged,FieldMap.getAllRemoveOther _ other.2.1]
  split
  · exact FieldMap.getAllInsertSelf _ _ _
  · rw [FieldMap.getAllAppendOther _ _ other.1]
    exact FieldMap.getAllInsertSelf _ _ _

end ZeroServe.Encode
