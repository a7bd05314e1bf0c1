import ZeroServe.H1Headers
import ZeroServe.WireMessage

/-! Request and response heads: the parsers of `http/h1.rs` and the request encoder. URI syntax belongs to the `http`
crate and enters as `parseUri`; a URI value carries the crate's guarantees. -/
namespace ZeroServe.H1
open ByteText

inductive HttpError where
  | io
  | invalidRequest (message : String)
  | invalidResponse (message : String)
  | invalidHeader
  | invalidChunked
  | headersTooLarge
  | lineTooLong
  | unexpectedEof
  deriving DecidableEq

def methodText (s : Bytes) : Bool := s != [] && s.all tokenByte

structure Method where
  text : Bytes
  valid : methodText text = true
  deriving DecidableEq

def Method.fromBytes (s : Bytes) : Option Method :=
  if h : methodText s = true then some ⟨s,h⟩ else none

def Method.ofAscii (s : String) (h : methodText (ascii s) = true := by exact Eq.refl true) : Method :=
  ⟨ascii s,h⟩
def Method.get := Method.ofAscii "GET"
def Method.head := Method.ofAscii "HEAD"

def uriText (scheme authority : Option Bytes) (path : Bytes) (query : Option Bytes) : Bytes :=
  (match scheme with | some s => s ++ ascii "://" | none => []) ++ authority.getD [] ++ path ++
  (match query with | some q => 63 :: q | none => [])

def pathText (path : Bytes) : Bool := path == [42] || path.headD 47 == 47

structure Uri where
  scheme : Option Bytes
  authority : Option Bytes
  path : Bytes
  query : Option Bytes
  valid : (uriText scheme authority path query).all (32 < ·) = true
  origin : pathText path = true
  plain : (35 : UInt8) ∉ path ++ query.getD []
  deriving DecidableEq

def Uri.toString (u : Uri) : Bytes := uriText u.scheme u.authority u.path u.query

inductive Version where
  | http10
  | http11
  | http2
  deriving DecidableEq

structure StatusCode where
  code : Nat
  valid : 100 ≤ code ∧ code ≤ 999
  deriving DecidableEq

def StatusCode.fromU16 (n : Nat) : Option StatusCode :=
  if h : 100 ≤ n ∧ n ≤ 999 then some ⟨n,h⟩ else none
def StatusCode.isInformational (s : StatusCode) : Bool := s.code < 200

structure RequestHead where
  method : Method
  uri : Uri
  version : Version
  headers : HeaderMap
  deriving DecidableEq

structure ResponseHead where
  status : StatusCode
  statusText : Bytes
  version : Version
  headers : HeaderMap
  deriving DecidableEq

def parseVersion (s : Bytes) : Option Version :=
  if s = ascii "HTTP/1.1" then some .http11
  else if s = ascii "HTTP/1.0" then some .http10 else none

def versionBytes : Version → Bytes
  | .http10 => ascii "HTTP/1.0"
  | _ => ascii "HTTP/1.1"

def splitAsciiWord (value : Bytes) : Option (Bytes × Bytes) :=
  let value := trimAsciiStart value
  if value = [] then none
  else some (value.takeWhile (! asciiWhitespace ·),value.dropWhile (! asciiWhitespace ·))

/- The lines after the first, up to the first empty one. Cutting the rest of the head at
every line end leaves an empty last piece where the source's loop sees an empty rest. -/
def readFields (trim : Bytes → Bytes) : HeaderMap → List Bytes → Except HttpError HeaderMap
  | headers, [] => .ok headers
  | headers, line::lines =>
    if line = [] then .ok headers else
    match splitOnce 58 line with
    | none => .error .invalidHeader
    | some (name,value) =>
      if trim name = [] then .error .invalidHeader else
      match HeaderName.fromBytes (trim name),HeaderValue.fromBytes (trim value) with
      | some name,some value => readFields trim (headers.append name value) lines
      | _,_ => .error .invalidHeader

def parseHeadersBytes (lines : List Bytes) : Except HttpError HeaderMap :=
  readFields trimAscii .empty lines

def parseHeaders (lines : List Bytes) : Except HttpError HeaderMap :=
  readFields strTrim .empty lines

def startLine (raw : Bytes) : Bytes := (splitCrlf raw).headD []
def headerLines (raw : Bytes) : List Bytes := (splitCrlf raw).tail

def orInvalid {α : Type} (e : HttpError) : Option α → Except HttpError α
  | some a => .ok a
  | none => .error e

def parseRequestHead (parseUri : Bytes → Option Uri) (raw : Bytes) :
    Except HttpError RequestHead := do
  let (method,rest) ← orInvalid (.invalidRequest "missing method") (splitAsciiWord (startLine raw))
  let (uri,rest) ← orInvalid (.invalidRequest "missing uri") (splitAsciiWord rest)
  let (version,rest) ← orInvalid (.invalidRequest "missing version") (splitAsciiWord rest)
  if trimAscii rest ≠ [] then .error (.invalidRequest "extra request line fields") else
  let method ← orInvalid (.invalidRequest "invalid method") (Method.fromBytes method)
  if ! validUtf8 uri then .error (.invalidRequest "non-utf8 uri") else
  let uri ← orInvalid (.invalidRequest "invalid uri") (parseUri uri)
  let version ← orInvalid (.invalidRequest "invalid version") (parseVersion version)
  let headers ← parseHeadersBytes (headerLines raw)
  .ok ⟨method,uri,version,normalizeCookieHeaders headers⟩

def statusWord (text : Bytes) : Bytes :=
  match splitOnce 32 text with
  | some (code,_) => code
  | none => text

def parseResponseHead (raw : Bytes) : Except HttpError ResponseHead := do
  if ! validUtf8 raw then .error (.invalidResponse "non-utf8") else
  let (version,statusText) ←
    orInvalid (.invalidResponse "missing status code") (splitOnce 32 (startLine raw))
  let statusText := strTrimStart statusText
  let version ← orInvalid (.invalidResponse "invalid version") (parseVersion version)
  let code ← orInvalid (.invalidResponse "invalid status code")
    (fromStrRadix 10 (2^16) (statusWord statusText))
  let status ← orInvalid (.invalidResponse "invalid status code") (StatusCode.fromU16 code)
  let headers ← parseHeaders (headerLines raw)
  .ok ⟨status,statusText,version,headers⟩

def headerLine (field : HeaderName × HeaderValue) : Bytes :=
  field.1.text ++ [58,32] ++ field.2.bytes ++ crlf

def encodeRequestHead (head : RequestHead) : Bytes :=
  head.method.text ++ [32] ++ head.uri.toString ++ [32] ++ versionBytes head.version ++ crlf ++
  head.headers.pairs.flatMap headerLine ++ crlf

def requestLine (head : RequestHead) : Bytes :=
  head.method.text ++ [32] ++ head.uri.toString ++ [32] ++ versionBytes head.version

def wireFields (headers : HeaderMap) : List (Bytes × Bytes) :=
  headers.pairs.map (fun f => (f.1.text,trimAscii f.2.bytes))

theorem tokenPlain {b} (h : tokenByte b = true) : b ≠ 13 ∧ b ≠ 58 ∧ b ≠ 32 := by
  refine ⟨?_,?_,?_⟩ <;> (intro same; subst same; exact absurd h (by decide))

theorem headerFieldProper (f : HeaderName × HeaderValue) :
    (58 : UInt8) ∉ f.1.text ∧ (13 : UInt8) ∉ f.1.text ∧ (13 : UInt8) ∉ f.2.bytes := by
  refine ⟨fun mem => ?_,fun mem => ?_,fun mem => ?_⟩
  · exact (tokenPlain (nameBytes f.1 _ mem)).2.1 rfl
  · exact (tokenPlain (nameBytes f.1 _ mem)).1 rfl
  · exact absurd (valueBytes f.2 _ mem) (by decide)

theorem readHeadLines {start} (first : start ≠ [] ∧ (13 : UInt8) ∉ start) (headers : HeaderMap) (rest : Bytes) :
    WireMessage.readHead (start ++ crlf ++ headers.pairs.flatMap headerLine ++ crlf ++ rest) =
      some (⟨start,wireFields headers⟩,rest) := by
  have read := WireMessage.readHeadEncoded start
    (headers.pairs.map (fun f => (f.1.text,f.2.bytes))) rest first (by
      intro f mem
      obtain ⟨g,_,rfl⟩ := List.mem_map.mp mem
      exact headerFieldProper g)
  simp only [List.flatMap_map,List.map_map] at read
  have same : ∀ f : HeaderName × HeaderValue,
      WireMessage.fieldLine (f.1.text,f.2.bytes) ++ crlf = headerLine f := fun f => rfl
  simp only [same] at read
  rw [read]
  simp [wireFields,nameLower]

theorem requestLineProper (head : RequestHead) : requestLine head ≠ [] ∧ (13 : UInt8) ∉ requestLine head := by
  refine ⟨by simp [requestLine],?_⟩
  have method : (13 : UInt8) ∉ head.method.text := by
    intro mem
    have h := head.method.valid
    simp only [methodText,Bool.and_eq_true,List.all_eq_true] at h
    exact (tokenPlain (h.2 _ mem)).1 rfl
  have uri : (13 : UInt8) ∉ head.uri.toString := by
    intro mem
    have h := List.all_eq_true.mp head.uri.valid _ mem
    exact absurd h (by decide)
  have version : (13 : UInt8) ∉ versionBytes head.version := by
    cases head.version <;> decide +kernel
  simp [requestLine,method,uri,version]

theorem readRequestHead (head : RequestHead) (rest : Bytes) : WireMessage.readHead (encodeRequestHead head ++ rest) =
      some (⟨requestLine head,wireFields head.headers⟩,rest) :=
  readHeadLines (requestLineProper head) head.headers rest

theorem wireValues (headers : HeaderMap) (name : HeaderName) : WireMessage.valuesOf (wireFields headers) name.text =
      (headers.getAll name).map (fun v => trimAscii v.bytes) := by
  unfold WireMessage.valuesOf wireFields FieldMap.getAll
  rw [List.filter_map,List.map_map,List.map_map]
  congr 1
  apply List.filter_congr
  intro f _
  simp only [Function.comp_apply,decide_eq_decide]
  exact ⟨nameExt,fun same => by rw [same]⟩

theorem wirePermValues {a b} (h : (wireFields a).Perm (wireFields b)) (name : HeaderName) :
    ((a.getAll name).map (fun v => trimAscii v.bytes)).Perm
      ((b.getAll name).map (fun v => trimAscii v.bytes)) := by
  rw [← wireValues,← wireValues]
  exact (h.filter _).map _

theorem wirePermLengths {a b} (h : (wireFields a).Perm (wireFields b)) (name : HeaderName) :
    (a.getAll name).length = (b.getAll name).length := by
  simpa using (wirePermValues h name).length_eq

theorem wirePermOfGetAll {a b} (h : ∀ name, a.getAll name = b.getAll name) :
    (wireFields a).Perm (wireFields b) := (FieldMap.permOfGetAll h).map _

end ZeroServe.H1
