import ZeroServe.ProxyReply

/-! The two ways a GET without a body is written to a backend: the rebuilt head of the general path and the lines
`encode_simple_proxy_request_head` copies in one pass. -/
namespace ZeroServe.Proxy
open ByteText H1

inductive BackendScheme where
  | http
  | https
  | unix
  deriving DecidableEq

structure BackendTarget where
  scheme : BackendScheme
  host : Bytes
  isIpv6 : Bool
  port : Nat
  basePath : Bytes
  baseQuery : Option Bytes
  rooted : basePath.headD 47 = 47
  plain : (35 : UInt8) ∉ basePath ++ baseQuery.getD []

instance : DecidableEq BackendTarget := fun a b =>
  decidable_of_iff (a.scheme = b.scheme ∧ a.host = b.host ∧ a.isIpv6 = b.isIpv6 ∧ a.port = b.port ∧
    a.basePath = b.basePath ∧ a.baseQuery = b.baseQuery) (by cases a; cases b; simp)

theorem rootUnmarked : (35 : UInt8) ∉ ([47] : Bytes) ++ (none : Option Bytes).getD [] := by decide

def backendRoot : BackendTarget :=
  ⟨.http,ascii "127.0.0.1",false,8080,[47],none,by decide,rootUnmarked⟩

def trimStartSlashes (s : Bytes) : Bytes := s.dropWhile (· == 47)
def trimEndSlashes (s : Bytes) : Bytes := (s.reverse.dropWhile (· == 47)).reverse

def joinPaths (base path : Bytes) : Bytes :=
  let base := trimEndSlashes base
  let path := if path = [] then [47] else path
  if base = [] || base = [47] then path else base ++ [47] ++ trimStartSlashes path

def mergeQueries (base extra : Option Bytes) : Option Bytes :=
  match base.filter (· ≠ []),extra.filter (· ≠ []) with
  | some base,some extra => some (base ++ [38] ++ extra)
  | some base,none => some base
  | none,extra => extra

def backendUriText (target : BackendTarget) (uri : Uri) : Bytes :=
  joinPaths target.basePath uri.path ++
  match mergeQueries target.baseQuery uri.query with
  | some query => 63 :: query
  | none => []

def buildBackendUri (parseUri : Bytes → Option Uri) (target : BackendTarget) (uri : Uri) :
    Option Uri := parseUri (backendUriText target uri)

def appendBackendUri (target : BackendTarget) (uri : Uri) : Bytes :=
  let base := trimEndSlashes target.basePath
  let path := if uri.path = [] then [47] else uri.path
  (if base = [] || base = [47] then path else base ++ [47] ++ trimStartSlashes path) ++
  match target.baseQuery.filter (· ≠ []),uri.query.filter (· ≠ []) with
  | some base,some extra => [63] ++ base ++ [38] ++ extra
  | some base,none => [63] ++ base
  | none,some extra => [63] ++ extra
  | none,none => []

def skippedNames : List HeaderName :=
  [.altSvc,.connection,.proxyConnection,.proxyAuthenticate,.proxyAuthorization,.keepAlive,
   .trailer,.transferEncoding,.upgrade,.expect,.contentLength]

def isSimpleProxySkipRequestHeader (name : HeaderName) (defaultForwarded : Bool) : Bool :=
  skippedNames.contains name ||
  (defaultForwarded && (name == .xForwardedFor || name == .xForwardedProto || name == .xForwardedHost))

def hasTrailers (v : HeaderValue) : Bool := valueHasToken (ascii "trailers") v

def simpleHeaderLine (defaultForwarded : Bool) (field : HeaderName × HeaderValue) : Bytes :=
  if isSimpleProxySkipRequestHeader field.1 defaultForwarded then []
  else if field.1 == .te && ! hasTrailers field.2 then []
  else field.1.text ++ [58,32] ++ (if field.1 == .te then ascii "trailers" else field.2.bytes) ++ crlf

def encodeSimpleProxyRequestHead (f : Forwarding) (target : BackendTarget) (head : RequestHead) :
    Bytes :=
  head.method.text ++ [32] ++ appendBackendUri target head.uri ++ ascii " HTTP/1.1\r\n" ++
  head.headers.pairs.flatMap (simpleHeaderLine f.defaultForwarded) ++
  ascii "x-forwarded-for: " ++ f.peer.bytes ++ ascii "\r\nx-forwarded-proto: " ++
  f.scheme.asStr.bytes ++ ascii "\r\nx-forwarded-host: " ++
  ((head.headers.get .host).bind HeaderValue.toStr).getD [] ++ ascii "\r\n\r\n"

structure Overrides where
  method : Option Bytes
  uri : Option Bytes
  headers : Option HeaderMap
  deriving DecidableEq

def canUseSimpleProxyFastPath (head : RequestHead) (body : Body) (isWsRequest : Bool)
    (rules : Rules) (o : Overrides) : Bool :=
  head.method == .get && hint body == .none && ! isWsRequest && o.method.isNone &&
  o.uri.isNone && o.headers.isNone && canUseRawFixedProxyResponse rules false false

def simpleField (defaultForwarded : Bool) (field : HeaderName × HeaderValue) :
    Option (HeaderName × HeaderValue) :=
  if isSimpleProxySkipRequestHeader field.1 defaultForwarded then none
  else if field.1 = .te then
    if hasTrailers field.2 then some (.te,.ofAscii "trailers") else none
  else some field

def copiedFields (f : Forwarding) (headers : HeaderMap) : HeaderMap :=
  ⟨headers.pairs.filterMap (simpleField f.defaultForwarded)⟩

def simpleFields (f : Forwarding) (headers : HeaderMap) : HeaderMap :=
  (((copiedFields f headers).append .xForwardedFor f.peer).append .xForwardedProto
    f.scheme.asStr).append .xForwardedHost ((hostValue headers).getD ⟨[],Eq.refl true⟩)

theorem simpleLine (defaultForwarded : Bool) (field : HeaderName × HeaderValue) :
    simpleHeaderLine defaultForwarded field = (simpleField defaultForwarded field).toList.flatMap headerLine := by
  unfold simpleHeaderLine simpleField
  split
  · rfl
  · by_cases te : field.1 = .te
    · cases hasTrailers field.2 <;> simp [te,headerLine,HeaderValue.ofAscii]
    · simp [te,headerLine]

theorem simpleLines (defaultForwarded : Bool) (fields : List (HeaderName × HeaderValue)) :
    fields.flatMap (simpleHeaderLine defaultForwarded) =
      (fields.filterMap (simpleField defaultForwarded)).flatMap headerLine := by
  induction fields with
  | nil => rfl
  | cons field fields ih =>
    rw [List.flatMap_cons,ih,simpleLine,List.filterMap_cons]
    cases simpleField defaultForwarded field <;> simp

variable (target : BackendTarget) (uri : Uri)

theorem appendBackendUriText :
    appendBackendUri target uri = backendUriText target uri := by
  unfold appendBackendUri backendUriText joinPaths mergeQueries
  cases target.baseQuery.filter (· ≠ []) <;> cases uri.query.filter (· ≠ []) <;> simp

theorem visibleValue {v : HeaderValue} {s : Bytes} (h : v.toStr = some s) : s = v.bytes := by
  unfold HeaderValue.toStr at h
  split at h <;> try contradiction
  exact (Option.some.inj h).symm

theorem fromBytesSelf (v : HeaderValue) : HeaderValue.fromBytes v.bytes = some v := by
  rw [HeaderValue.fromBytes,dif_pos v.valid]

theorem hostValueEq (headers : HeaderMap) :
    hostValue headers = (headers.get .host).bind (fun v => v.toStr.map (fun _ => v)) := by
  unfold hostValue
  cases headers.get .host with
  | none => rfl
  | some v =>
    cases read : v.toStr with
    | none => simp [read]
    | some s => simp [read,visibleValue read,fromBytesSelf]

theorem hostText (headers : HeaderMap) : ((headers.get .host).bind HeaderValue.toStr).getD [] =
      ((hostValue headers).getD ⟨[],Eq.refl true⟩).bytes := by
  rw [hostValueEq]
  cases headers.get .host with
  | none => rfl
  | some v =>
    cases read : v.toStr with
    | none => simp [read]
    | some s => simp [read,visibleValue read]

def simpleRequestLine (target : BackendTarget) (head : RequestHead) : Bytes :=
  head.method.text ++ [32] ++ backendUriText target head.uri ++ [32] ++ ascii "HTTP/1.1"

theorem encodeSimpleFields (f : Forwarding) (target : BackendTarget) (head : RequestHead) :
    encodeSimpleProxyRequestHead f target head = simpleRequestLine target head ++ crlf ++
        (simpleFields f head.headers).pairs.flatMap headerLine ++ crlf := by
  have version : ascii " HTTP/1.1\r\n" = [32] ++ ascii "HTTP/1.1" ++ crlf := by decide +kernel
  have address : ascii "x-forwarded-for: " = HeaderName.xForwardedFor.text ++ [58,32] := by
    decide +kernel
  have proto : ascii "\r\nx-forwarded-proto: " =
      crlf ++ HeaderName.xForwardedProto.text ++ [58,32] := by decide +kernel
  have host : ascii "\r\nx-forwarded-host: " =
      crlf ++ HeaderName.xForwardedHost.text ++ [58,32] := by decide +kernel
  have last : ascii "\r\n\r\n" = crlf ++ crlf := by decide +kernel
  rw [encodeSimpleProxyRequestHead,appendBackendUriText,simpleLines,hostText,version,address, proto,host,last]
  simp [simpleRequestLine,simpleFields,copiedFields,FieldMap.append,headerLine]

/- The crate prints a parsed origin-form or asterisk-form target as it was. -/
def Displays (parseUri : Bytes → Option Uri) : Prop :=
  ∀ s u, s.head? = some 47 ∨ s.head? = some 42 → (35 : UInt8) ∉ s → parseUri s = some u →
    u.toString = s

theorem pathLed {path} (h : pathText path = true) : (if path = [] then [47] else path).head? = some 47 ∨
      (if path = [] then [47] else path).head? = some 42 := by
  simp only [pathText,Bool.or_eq_true,beq_iff_eq] at h
  rcases h with rfl | led
  · exact Or.inr rfl
  · cases path with
    | nil => exact Or.inl rfl
    | cons b rest => exact Or.inl (by simpa using led)

theorem backendUriLed :
    (backendUriText target uri).head? = some 47 ∨ (backendUriText target uri).head? = some 42 := by
  have joined : (joinPaths target.basePath uri.path).head? = some 47 ∨
      (joinPaths target.basePath uri.path).head? = some 42 := by
    unfold joinPaths
    dsimp only
    split
    · exact pathLed uri.origin
    · rename_i long
      have start : trimEndSlashes target.basePath <+: target.basePath :=
        List.rdropWhile_prefix (· == 47) target.basePath
      cases base : trimEndSlashes target.basePath with
      | nil => simp [base] at long
      | cons b rest =>
        obtain ⟨more,same⟩ := start
        have led := target.rooted
        rw [← same,base] at led
        exact Or.inl (by simpa using led)
  cases path : joinPaths target.basePath uri.path with
  | nil => rw [path] at joined; simp at joined
  | cons b rest =>
    simpa [backendUriText,path] using joined

theorem backendUriPlain : (35 : UInt8) ∉ backendUriText target uri := by
  have base := target.plain
  have own := uri.plain
  simp only [List.mem_append,not_or] at base own
  have joined : (35 : UInt8) ∉ joinPaths target.basePath uri.path := by
    have front : (35 : UInt8) ∉ trimEndSlashes target.basePath := fun mem =>
      base.1 ((List.rdropWhile_prefix (· == 47) target.basePath).subset mem)
    have path : (35 : UInt8) ∉ (if uri.path = [] then [47] else uri.path) := by
      split
      · decide
      · exact own.1
    have back : (35 : UInt8) ∉ trimStartSlashes (if uri.path = [] then [47] else uri.path) :=
      fun mem => path ((List.dropWhile_suffix _).subset mem)
    unfold joinPaths
    dsimp only
    split
    · exact path
    · simp [front,back]
  have queries : (35 : UInt8) ∉ (mergeQueries target.baseQuery uri.query).getD [] := by
    obtain ⟨_,own⟩ := own
    unfold mergeQueries
    cases first : target.baseQuery with
    | none => cases second : uri.query with
      | none => simp
      | some e => rw [second] at own; by_cases he : e = [] <;> simp_all [Option.filter]
    | some b =>
      cases second : uri.query with
      | none => by_cases hb : b = [] <;> simp_all [Option.filter]
      | some e =>
        by_cases hb : b = [] <;> by_cases he : e = [] <;> simp_all [Option.filter]
  unfold backendUriText
  cases found : mergeQueries target.baseQuery uri.query with
  | none => simpa using joined
  | some q =>
    rw [found] at queries
    simpa [joined] using queries

end ZeroServe.Proxy
