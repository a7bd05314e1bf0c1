import Mathlib.Data.List.Sort
import ZeroServe.AwsUri

/-! The signer of AWS requests: the canonical request, the Authorization header and the presigned URL. A list is
sorted by insertion, which is stable. -/
namespace ZeroServe.Aws
open ByteText CharText

/- What the signer takes from its libraries: the case maps of strings and the hash functions. A lower-cased
string has nothing left to lower. -/
structure Primitives where
  lowercase : Str → Str
  uppercase : Str → Str
  lowercaseAgain : ∀ s, lowercase (lowercase s) = lowercase s
  sha256 : Bytes → Bytes
  hmac : Bytes → Bytes → Bytes

/- An instant through its two formats, `%Y%m%d` and `%Y%m%dT%H%M%SZ`. -/
structure DateTime where
  shortDate : Str
  longDatetime : Str
  deriving DecidableEq

structure SignParams where
  accessKey : Str
  secretKey : Str
  region : Str
  service : Str
  method : Str
  uri : Str
  headers : List (Str × Str)
  bodyHash : Str
  datetime : DateTime
  deriving DecidableEq

def SignParams.sanityCheck (p : SignParams) : Bool :=
  (utf8 p.accessKey).length ≤ 256 && (utf8 p.secretKey).length ≤ 256 && (utf8 p.region).length ≤ 64 &&
    (utf8 p.service).length ≤ 64 && (utf8 p.method).length ≤ 64 && (utf8 p.uri).length ≤ 1024

def parseUri (uri : Str) : Str × Option Str :=
  if '?' ∈ uri then (uri.takeWhile (· ≠ '?'),some ((uri.dropWhile (· ≠ '?')).drop 1)) else (uri,none)

def newline : UInt8 := 10
def colon : UInt8 := 58
def semicolon : UInt8 := 59
def equals : UInt8 := 61
def ampersand : UInt8 := 38

def lowerDigit (n : UInt8) : UInt8 := if n < 10 then 48 + n else 87 + n
def hexEncode (data : Bytes) : Bytes := data.flatMap fun b => [lowerDigit (b / 16),lowerDigit (b % 16)]

def queryPair (pair : Str) : Option (Str × Str) :=
  if '=' ∈ pair then some (pair.takeWhile (· ≠ '='),(pair.dropWhile (· ≠ '=')).drop 1)
  else if pair = [] then none else some (pair,[])

def queryPairs (query : Str) : List (Str × Str) := (query.splitOn '&').filterMap queryPair

def encodePair (p : Str × Str) : Bytes × Bytes := (uriEncode p.1 true,uriEncode p.2 true)

def written (p : Bytes × Bytes) : Bytes := p.1 ++ equals::p.2

def pairLe (p q : Bytes × Bytes) : Prop := p.1 < q.1 ∨ p.1 = q.1 ∧ p.2 ≤ q.2
instance : DecidableRel pairLe := fun p q => inferInstanceAs (Decidable (p.1 < q.1 ∨ p.1 = q.1 ∧ p.2 ≤ q.2))

def canonicalQueryString (query : Str) : Bytes :=
  [ampersand].intercalate ((((queryPairs query).map encodePair).insertionSort pairLe).map fun p =>
    if p.2 = [] then p.1 else written p)

structure CanonicalRequest where
  method : Bytes
  uri : Bytes
  query : Bytes
  headerLines : List Bytes
  signedHeaders : List Bytes
  bodyHash : Bytes
  deriving DecidableEq

def CanonicalRequest.text (r : CanonicalRequest) : Bytes :=
  r.method ++ [newline] ++ r.uri ++ [newline] ++ r.query ++ [newline] ++ [newline].intercalate r.headerLines ++
    [newline,newline] ++ [semicolon].intercalate r.signedHeaders ++ [newline] ++ r.bodyHash

def credentialScope (datetime : DateTime) (region service : Str) : Str :=
  datetime.shortDate ++ '/'::region ++ '/'::service ++ str "/aws4_request"

def sortBytes (l : List Bytes) : List Bytes := l.insertionSort (· ≤ ·)

variable (lib : Primitives)

def headerName (h : Str × Str) : Bytes := utf8 (lib.lowercase h.1)
def headerLine (h : Str × Str) : Bytes := headerName lib h ++ colon::utf8 (trim h.2)

def buildCanonicalRequest (method path : Str) (query : Option Str) (headers : List (Str × Str)) (bodyHash : Str) :
    CanonicalRequest where
  method := utf8 (lib.uppercase method)
  uri := uriEncode path false
  query := query.elim [] canonicalQueryString
  headerLines := sortBytes (headers.map (headerLine lib))
  signedHeaders := sortBytes (headers.map (headerName lib))
  bodyHash := utf8 bodyHash

def buildStringToSign (datetime : DateTime) (region : Str) (canonicalReq : Bytes) (service : Str) : Bytes :=
  ascii "AWS4-HMAC-SHA256\n" ++ utf8 datetime.longDatetime ++ [newline] ++
    utf8 (credentialScope datetime region service) ++ [newline] ++ hexEncode (lib.sha256 canonicalReq)

def generateSigningKey (secretKey : Str) (datetime : DateTime) (region service : Str) : Bytes :=
  let kDate := lib.hmac (ascii "AWS4" ++ utf8 secretKey) (utf8 datetime.shortDate)
  let kRegion := lib.hmac kDate (utf8 region)
  let kService := lib.hmac kRegion (utf8 service)
  lib.hmac kService (ascii "aws4_request")

def calculateSignature (signingKey stringToSign : Bytes) : Bytes := hexEncode (lib.hmac signingKey stringToSign)

def signatureOf (secretKey : Str) (datetime : DateTime) (region service : Str) (canonicalReq : Bytes) : Bytes :=
  calculateSignature lib (generateSigningKey lib secretKey datetime region service)
    (buildStringToSign lib datetime region canonicalReq service)

def joinNames (names : List Str) : Str := [';'].intercalate names

def authorizedNames (headers : List (Str × Str)) : Str := joinNames (headers.map Prod.fst)

def buildAuthorizationHeader (accessKey secretKey region service method path : Str) (query : Option Str)
    (headers : List (Str × Str)) (bodyHash : Str) (datetime : DateTime) : Bytes :=
  ascii "AWS4-HMAC-SHA256 Credential=" ++ utf8 accessKey ++ [47] ++ utf8 (credentialScope datetime region service) ++
    ascii ", SignedHeaders=" ++ utf8 (authorizedNames headers) ++ ascii ", Signature=" ++
    signatureOf lib secretKey datetime region service
      (buildCanonicalRequest lib method path query headers bodyHash).text

def presignedNames (headers : List (Str × Str)) : List Str :=
  if headers = [] then [str "host"] else headers.map Prod.fst

def presignedParams (accessKey region service : Str) (existingQuery : Option Str) (headers : List (Str × Str))
    (datetime : DateTime) (expiresSecs : Nat) : List (Str × Str) :=
  existingQuery.elim [] queryPairs ++
    [(str "X-Amz-Algorithm",str "AWS4-HMAC-SHA256"),
      (str "X-Amz-Credential",accessKey ++ '/'::credentialScope datetime region service),
      (str "X-Amz-Date",datetime.longDatetime),(str "X-Amz-Expires",Nat.toDigits 10 expiresSecs),
      (str "X-Amz-SignedHeaders",joinNames (presignedNames headers))]

def nameLe (p q : Str × Str) : Prop := utf8 p.1 ≤ utf8 q.1
instance : DecidableRel nameLe := fun p q => inferInstanceAs (Decidable (utf8 p.1 ≤ utf8 q.1))

def presignedQuery (params : List (Str × Str)) : Bytes :=
  [ampersand].intercalate ((params.insertionSort nameLe).map fun p => written (encodePair p))

def presignedRequest (method path : Str) (params headers : List (Str × Str)) : CanonicalRequest where
  method := utf8 (lib.uppercase method)
  uri := uriEncode path false
  query := presignedQuery params
  headerLines := sortBytes (headers.map (headerLine lib))
  signedHeaders := (presignedNames headers).map utf8
  bodyHash := ascii "UNSIGNED-PAYLOAD"

def buildPresignedUrl (accessKey secretKey region service method path : Str) (existingQuery : Option Str)
    (headers : List (Str × Str)) (datetime : DateTime) (expiresSecs : Nat) : Bytes :=
  let params := presignedParams accessKey region service existingQuery headers datetime expiresSecs
  utf8 path ++ [63] ++ presignedQuery params ++ ascii "&X-Amz-Signature=" ++
    signatureOf lib secretKey datetime region service (presignedRequest lib method path params headers).text

def scriptHeaders (headers : List (Str × Str)) : List (Str × Str) := headers.map fun h => (lib.lowercase h.1,h.2)

/- The two calls of a script, up to the copy into its buffer; a failed size check is none. -/
def awsV4AuthorizationHeader (p : SignParams) : Option Bytes :=
  if p.sanityCheck then
    let uri := parseUri p.uri
    some (buildAuthorizationHeader lib p.accessKey p.secretKey p.region p.service p.method uri.1 uri.2
      (scriptHeaders lib p.headers) p.bodyHash p.datetime)
  else none

def awsV4PresignedUrl (p : SignParams) (expiresSecs : Nat) : Option Bytes :=
  if p.sanityCheck then
    let uri := parseUri p.uri
    some (buildPresignedUrl lib p.accessKey p.secretKey p.region p.service p.method uri.1 uri.2
      (scriptHeaders lib p.headers) p.datetime expiresSecs)
  else none

end ZeroServe.Aws
