import ZeroServe.H1Body

/-! Messages on a connection: the next request, the next response with interim ones
skipped, and `raw_fixed_response`, the byte scanner that relays a length-delimited
response without building a header map. -/
namespace ZeroServe.H1
open ByteText ByteSource

structure Request where
  head : RequestHead
  body : Body
  deriving DecidableEq

structure Response where
  head : ResponseHead
  body : Body
  deriving DecidableEq

structure RawFixedResponse where
  status : Nat
  canReuse : Bool
  head : Bytes
  body : Body
  deriving DecidableEq

inductive ResponseRead where
  | rawFixed (raw : RawFixedResponse)
  | parsed (response : Response)
  deriving DecidableEq

def isInterimResponseStatus (status : StatusCode) : Bool :=
  status.isInformational && status.code != 101

def rawStatusAllowsBody (status : Nat) : Bool :=
  ! (decide (status < 200) || status == 204 || status == 304)

def headerNameEq (name expected : Bytes) : Bool := eqIgnoreAsciiCase name expected

def headerValueHasToken (value token : Bytes) : Bool :=
  (value.splitOn 44).any (fun part => eqIgnoreAsciiCase (trimAscii part) token)

def parseU64Ascii (value : Bytes) : Option Nat := readDigits 10 (2^64) 0 value

def hopHeaderNames : List Bytes :=
  [ascii "alt-svc",ascii "connection",ascii "proxy-connection",ascii "proxy-authenticate",
   ascii "proxy-authorization",ascii "keep-alive",ascii "te",ascii "trailer",
   ascii "transfer-encoding",ascii "upgrade"]

def isHopHeaderName (name : Bytes) : Bool := hopHeaderNames.any (headerNameEq name)

structure RawScan where
  contentLength : Option Nat
  connectionClose : Bool
  out : Bytes
  deriving DecidableEq

def rawLength (current : Option Nat) (name value : Bytes) : Except HttpError (Option Nat) :=
  if headerNameEq name (ascii "content-length") then
    (orInvalid .invalidHeader (parseU64Ascii value)).map some
  else .ok current

/- One turn of the scanning loop. A later Connection or Content-Length line replaces what
an earlier one said. -/
def rawLine (scan : RawScan) (line : Bytes) : Except HttpError RawScan :=
  if line = [] then .ok scan else
  match splitOnce 58 line with
  | none => .error .invalidHeader
  | some (name,value) =>
    let name := trimAscii name
    let value := trimAscii value
    let connectionClose :=
      if headerNameEq name (ascii "connection") then headerValueHasToken value (ascii "close")
      else scan.connectionClose
    match rawLength scan.contentLength name value with
    | .error e => .error e
    | .ok contentLength =>
      if isHopHeaderName name then .ok ⟨contentLength,connectionClose,scan.out⟩
      else .ok ⟨contentLength,connectionClose,scan.out ++ line ++ crlf⟩

def rawStatus (digits : Bytes) : Except HttpError Nat :=
  match digits with
  | [a,b,c] =>
    if [a,b,c].all (fun d => 48 ≤ d && d ≤ 57) then
      .ok ((a.toNat - 48) * 100 + (b.toNat - 48) * 10 + (c.toNat - 48))
    else .error (.invalidResponse "invalid status")
  | _ => .error (.invalidResponse "invalid status")

def rawFixedResponse (raw : Bytes) : Except HttpError (Option RawFixedResponse) := do
  let statusLine := startLine raw
  let parts := statusLine.splitOn 32
  let version := parts.headD []
  let digits ← orInvalid (.invalidResponse "missing status") (parts.tail.find? (· ≠ []))
  let status ← rawStatus digits
  if version ≠ ascii "HTTP/1.1" || ! rawStatusAllowsBody status then .ok none else
  let scan ← (headerLines raw).foldlM rawLine ⟨none,false,statusLine ++ crlf⟩
  match scan.contentLength with
  | none => .ok none
  | some 0 => .ok none
  | some n => .ok (some ⟨status,! scan.connectionClose,scan.out ++ crlf,.fixed n⟩)

def nextRequest (parseUri : Bytes → Option Uri) (c : Conn) :
    Except HttpError (Option Request) × Conn :=
  match readHeaders c with
  | (.error e,c) => (.error e,c)
  | (.ok none,c) => (.ok none,c)
  | (.ok (some raw),c) =>
    ((parseRequestHead parseUri raw).map (fun head => some ⟨head,requestBodyFromHeaders head⟩),c)

theorem nextRequestBody {parseUri : Bytes → Option Uri} {c c' request}
    (h : nextRequest parseUri c = (.ok (some request),c')) : request.body = requestBodyFromHeaders request.head := by
  unfold nextRequest at h
  split at h
  · cases h
  · cases h
  · rename_i raw c1 read
    cases parsed : parseRequestHead parseUri raw with
    | error e => rw [parsed] at h; cases h
    | ok head =>
      rw [parsed] at h
      cases h
      rfl

def parseResponse (raw : Bytes) : Except HttpError Response :=
  (parseResponseHead raw).map (fun head => ⟨head,responseBodyFromHeaders head⟩)

def nextResponse (c : Conn) : Except HttpError (Option Response) × Conn :=
  match readHeaders c with
  | (.error e,c) => (.error e,c)
  | (.ok none,c) => (.ok none,c)
  | (.ok (some raw),c) => ((parseResponse raw).map some,c)

def nextResponseFast (c : Conn) : Except HttpError (Option ResponseRead) × Conn :=
  match readHeaders c with
  | (.error e,c) => (.error e,c)
  | (.ok none,c) => (.ok none,c)
  | (.ok (some raw),c) =>
    match rawFixedResponse raw with
    | .ok (some response) => (.ok (some (.rawFixed response)),c)
    | .ok none => ((parseResponse raw).map (fun r => some (.parsed r)),c)
    | .error e => (.error e,c)

def tryNextResponse (c : Conn) : Except HttpError (Option Response) × Conn :=
  match find (crlf ++ crlf) c.buf with
  | none => if maxHeaderSize < c.buf.length then (.error .headersTooLarge,c) else (.ok none,c)
  | some idx =>
    ((parseResponse (c.buf.take idx)).map some,{c with buf := c.buf.drop (idx + 4)})

def ResponseRead.isInterim : ResponseRead → Bool
  | .parsed r => isInterimResponseStatus r.head.status
  | .rawFixed _ => false

def nextFinal {α : Type} (next : Conn → Except HttpError (Option α) × Conn) (interim : α → Bool) :
    Nat → Conn → Except HttpError (Option α) × Conn
  | 0, c => (.error (.invalidResponse "too many interim responses"),c)
  | left+1, c =>
    match next c with
    | (.error e,c) => (.error e,c)
    | (.ok none,c) => (.ok none,c)
    | (.ok (some r),c) => if interim r then nextFinal next interim left c else (.ok (some r),c)

def nextFinalResponse (c : Conn) : Except HttpError (Option Response) × Conn :=
  nextFinal nextResponse (fun r => isInterimResponseStatus r.head.status) maxInterimResponses c

def nextFinalResponseFast (c : Conn) : Except HttpError (Option ResponseRead) × Conn :=
  nextFinal nextResponseFast ResponseRead.isInterim maxInterimResponses c

end ZeroServe.H1
