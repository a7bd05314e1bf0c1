import ZeroServe.ByteReader
import ZeroServe.JsonTree
import ZeroServe.MachineInt
import ZeroServe.IpText
import ZeroServe.ScriptRequest

/-! A login by an identity provider: its sealed cookies, the exchange of the code for an id_token, the checks of its
claims and the answers to the two requests. -/
namespace ZeroServe
open ByteText JsonTree

def floatValue (bits : UInt64) : ℚ :=
  let mantissa : Nat := bits.toNat % 2 ^ 52
  let exponent : Nat := bits.toNat / 2 ^ 52 % 2 ^ 11
  let size : ℚ := if exponent = 0 then mantissa / 2 ^ 1074 else (2 ^ 52 + mantissa) * 2 ^ exponent / 2 ^ 1075
  if bits.toNat / 2 ^ 63 = 1 then -size else size

def JsonTree.Number.value : Number → ℚ
  | .integer n => n
  | .float bits => floatValue bits

def JsonTree.Number.asI64 : Number → Option Int
  | .integer n => if -2 ^ 63 ≤ n ∧ n < 2 ^ 63 then some n else none
  | .float _ => none

def JsonTree.Number.asU64 : Number → Option Nat
  | .integer n => if 0 ≤ n ∧ n < 2 ^ 64 then some n.toNat else none
  | .float _ => none

def JsonTree.Json.get : Json → Bytes → Option Json
  | .object fields,key => field fields key
  | _,_ => none

def JsonTree.Json.asStr : Json → Option Bytes
  | .string s => some s
  | _ => none

def JsonTree.Json.asNumber : Json → Option Number
  | .number n => some n
  | _ => none

theorem JsonTree.Json.asStrIff {v : Json} {s : Bytes} : v.asStr = some s ↔ v = .string s := by
  cases v <;> simp [Json.asStr]

namespace Oidc
open MachineInt

def defaultScope : Bytes := ascii "openid profile email"
def defaultSessionTtlSecs : Nat := 3600
def stateTtlSecs : Nat := 600
def stateCookie : Bytes := ascii "__zs_oidc_state"
def sessionCookie : Bytes := ascii "__zs_oidc_session"
def aadState : Bytes := ascii "zeroserve.oidc.state.v1"
def aadSession : Bytes := ascii "zeroserve.oidc.session.v1"
def xnonceLen : Nat := 24

structure OidcConfig where
  issuer : Option Bytes
  authorizationEndpoint : Option Bytes
  tokenEndpoint : Option Bytes
  clientId : Bytes
  clientSecret : Bytes
  redirectUri : Bytes
  scope : Bytes
  cookieSecret : Bytes
  sessionTtlSecs : Nat
  deriving DecidableEq

structure Endpoints where
  authorizationEndpoint : Bytes
  tokenEndpoint : Bytes
  deriving DecidableEq

structure StateData where
  state : Bytes
  nonce : Bytes
  codeVerifier : Bytes
  returnTo : Bytes
  exp : Int
  deriving DecidableEq

structure SessionData where
  exp : Int
  claims : Json

structure LoginParams where
  state : Bytes
  nonce : Bytes
  codeVerifier : Bytes
  codeChallenge : Bytes
  deriving DecidableEq

structure TokenResponse where
  idToken : Option Bytes
  error : Option Bytes
  errorDescription : Option Bytes
  deriving DecidableEq

structure Response where
  status : Nat
  body : Bytes
  contentType : Option Bytes
  forceClose : Bool
  headers : List (Bytes × Bytes)
  deriving DecidableEq

/- What the server takes from elsewhere: SHA-256, XChaCha20-Poly1305 (key, nonce, associated data,
text), base64url without padding, the readers and writers of JSON, and the url crate's writing of the
authorization request. -/
structure Crates where
  digest : Bytes → Bytes
  encrypt : Bytes → Bytes → Bytes → Bytes → Option Bytes
  decrypt : Bytes → Bytes → Bytes → Bytes → Option Bytes
  encode : Bytes → Bytes
  decode : Bytes → Option Bytes
  writeState : StateData → Bytes
  readState : Bytes → Option StateData
  writeSession : SessionData → Bytes
  readJson : Bytes → Option Json
  readTokenResponse : Bytes → Except Bytes TokenResponse
  readDiscovery : Bytes → Except Bytes Endpoints
  authorizeUrl : Bytes → OidcConfig → LoginParams → Except Bytes Bytes
  /- What is written as JSON is read as it was. -/
  stateRead : ∀ data, readState (writeState data) = some data

abbrev Network := Bytes → List (Bytes × Bytes) → Except Bytes (Nat × Bytes)

def readConfig (cfg : Json) : Option OidcConfig :=
  match cfg with
  | .object _ =>
    let s (key : String) := (cfg.get (ascii key)).bind Json.asStr
    some {
      issuer := s "issuer"
      authorizationEndpoint := s "authorization_endpoint"
      tokenEndpoint := s "token_endpoint"
      clientId := (s "client_id").getD []
      clientSecret := (s "client_secret").getD []
      redirectUri := (s "redirect_uri").getD []
      scope := (s "scope").getD defaultScope
      cookieSecret := (s "cookie_secret").getD []
      sessionTtlSecs :=
        ((((cfg.get (ascii "session_ttl_secs")).bind Json.asNumber).bind Number.asU64).filter
          fun n => 0 < n).getD defaultSessionTtlSecs }
  | _ => none

def OidcConfig.usable (cfg : OidcConfig) : Bool :=
  ! (cfg.clientId.isEmpty || cfg.redirectUri.isEmpty || cfg.cookieSecret.length < 16)

def setCookie (name value : Bytes) (maxAge : Option Nat) (secure : Bool) : Bytes :=
  name ++ ascii "=" ++ value ++ ascii "; Path=/; HttpOnly; SameSite=Lax" ++
    (match maxAge with
      | some age => ascii "; Max-Age=" ++ Ip.decimal age
      | none => []) ++
    if secure then ascii "; Secure" else []

def clearCookie (name : Bytes) (secure : Bool) : Bytes :=
  name ++ ascii "=; Path=/; HttpOnly; SameSite=Lax; Max-Age=0" ++ if secure then ascii "; Secure" else []

def cookieValue (cookieHeader name : Bytes) : Option Bytes :=
  (cookieHeader.splitOn 59).findSome? fun pair =>
    match splitOnce 61 (strTrim pair) with
    | some (k,v) => if strTrim k = name then some (strTrim v) else none
    | none => none

def respond (status : Nat) (body : Bytes) (headers : List (Bytes × Bytes)) : Response :=
  ⟨status,body,some (ascii "text/plain; charset=utf-8"),false,headers⟩

section
variable (c : Crates)

def seal_ (secret aad nonce plaintext : Bytes) : Except Bytes Bytes :=
  match c.encrypt (c.digest secret) nonce aad plaintext with
  | some ciphertext => .ok (c.encode (nonce ++ ciphertext))
  | none => .error (ascii "seal failed")

def open_ (secret aad token : Bytes) : Option Bytes := do
  let combined ← c.decode (strTrim token)
  if combined.length < xnonceLen then none else
  c.decrypt (c.digest secret) (combined.take xnonceLen) aad (combined.drop xnonceLen)

def openState (secret token : Bytes) (now : Int) : Option StateData := do
  let bytes ← open_ c secret aadState token
  let data ← c.readState bytes
  if data.exp < now then none else some data

def parseIdTokenClaims (idToken : Bytes) : Option Json :=
  match idToken.splitOn 46 with
  | _::payload::_::_ => (c.decode payload).bind c.readJson
  | _ => none

def audienceOk (claims : Json) (clientId : Bytes) : Bool :=
  match claims.get (ascii "aud") with
  | some (.string s) => s == clientId
  | some (.array items) => items.any fun v => v.asStr == some clientId
  | _ => false

def issuerOk (claims : Json) : Option Bytes → Bool
  | some expected => ((claims.get (ascii "iss")).bind Json.asStr).getD [] == expected
  | none => true

/- Whatever is no integer of 64 bits counts as 0, which never expires. -/
def expClaim (claims : Json) : Int :=
  (((claims.get (ascii "exp")).bind Json.asNumber).bind Number.asI64).getD 0

def validateClaims (claims : Json) (expectedIssuer : Option Bytes) (clientId expectedNonce : Bytes)
    (now : Int) : Except Bytes Unit :=
  if ! issuerOk claims expectedIssuer then .error (ascii "id_token issuer mismatch") else
  if ! audienceOk claims clientId then .error (ascii "id_token audience mismatch") else
  if expClaim claims ≠ 0 ∧ expClaim claims < now then .error (ascii "id_token expired") else
  match (claims.get (ascii "nonce")).bind Json.asStr with
  | some nonce => if nonce ≠ expectedNonce then .error (ascii "id_token nonce mismatch") else .ok ()
  | none => .error (ascii "id_token missing nonce")

def tokenForm (cfg : OidcConfig) (code codeVerifier : Bytes) : List (Bytes × Bytes) :=
  [(ascii "grant_type",ascii "authorization_code"),(ascii "code",code),
    (ascii "redirect_uri",cfg.redirectUri),(ascii "client_id",cfg.clientId),
    (ascii "client_secret",cfg.clientSecret),(ascii "code_verifier",codeVerifier)]

def idTokenOf (status : Nat) (body : Bytes) : Except Bytes Bytes :=
  match c.readTokenResponse body with
  | .error e => .error (ascii "token endpoint returned non-JSON: " ++ e)
  | .ok parsed =>
    if 400 ≤ status ∨ parsed.error.isSome then
      .error (ascii "token endpoint error (status " ++ Ip.decimal status ++ ascii "): " ++
        parsed.error.getD [] ++ ascii " " ++ parsed.errorDescription.getD [])
    else parsed.idToken.elim (.error (ascii "token response missing id_token")) .ok

def exchangeCode (network : Network) (cfg : OidcConfig) (tokenEndpoint code codeVerifier expectedNonce : Bytes)
    (now : Int) : Except Bytes Json := do
  let answer ← network tokenEndpoint (tokenForm cfg code codeVerifier)
  let idToken ← idTokenOf c answer.1 answer.2
  let claims ← (parseIdTokenClaims c idToken).elim (.error (ascii "malformed id_token")) Except.ok
  validateClaims claims cfg.issuer cfg.clientId expectedNonce now
  .ok claims

def resolveEndpoints (network : Network) (cached : Bytes → Option Endpoints) (cfg : OidcConfig) :
    Except Bytes Endpoints :=
  match cfg.authorizationEndpoint,cfg.tokenEndpoint with
  | some auth,some token => .ok ⟨auth,token⟩
  | _,_ =>
    match cfg.issuer with
    | none => .error (ascii "oidc config needs either explicit endpoints or an issuer")
    | some issuer =>
      match cached issuer with
      | some found => .ok found
      | none => do
        let answer ← network (issuer.rdropWhile (· == 47) ++ ascii "/.well-known/openid-configuration") []
        if 400 ≤ answer.1 then
          .error (ascii "discovery failed (status " ++ Ip.decimal answer.1 ++ ascii ")")
        else
          match c.readDiscovery answer.2 with
          | .error e => .error (ascii "invalid discovery document: " ++ e)
          | .ok doc => .ok doc

end

structure Visit where
  request : Script.ScriptRequest
  scheme : Bytes

def Visit.queryParam (v : Visit) (name : Bytes) : Option Bytes :=
  (v.request.queryParamValues.lookup name).bind List.head?

def Visit.header (v : Visit) (name : Bytes) : Option Bytes := v.request.headers.lookup name

def Visit.secure (v : Visit) : Bool := v.scheme == ascii "https"

structure Task where
  cfg : OidcConfig
  code : Bytes
  codeVerifier : Bytes
  nonce : Bytes
  returnTo : Bytes
  secure : Bool
  deriving DecidableEq

inductive Started where
  | configError (message : Bytes)
  | responded (response : Response)
  | posted (task : Task)
  deriving DecidableEq

def badRequest (message : String) : Started := .responded (respond 400 (ascii message) [])

def handleCallback (c : Crates) (cfg : Json) (visit : Visit) (now : Int) : Started :=
  match readConfig cfg with
  | none => .configError (ascii "zs_oidc_handle_callback: cfg handle is not a JSON object")
  | some cfg =>
    if ! cfg.usable then
      .configError (ascii "zs_oidc_handle_callback: missing client_id/redirect_uri or weak cookie_secret")
    else
    match visit.queryParam (ascii "code"),visit.queryParam (ascii "state") with
    | some code,some queryState =>
      match visit.header (ascii "cookie") with
      | none => badRequest "missing login state"
      | some cookieHeader =>
        match cookieValue cookieHeader stateCookie with
        | none => badRequest "missing login state"
        | some sealedState =>
          match openState c cfg.cookieSecret sealedState now with
          | none => badRequest "invalid or expired login state"
          | some data =>
            if data.state ≠ queryState then badRequest "state mismatch"
            else .posted ⟨cfg,code,data.codeVerifier,data.nonce,data.returnTo,visit.secure⟩
    | _,_ => badRequest "missing code or state"

/- What a task meets outside: the endpoints, what is remembered of them, the clock when the claims
are checked and when the session begins, and the nonce drawn for the cookie. -/
structure Outside where
  network : Network
  cached : Bytes → Option Endpoints
  checkedAt : Int
  issuedAt : Int
  xnonce : Bytes

def Task.session (t : Task) (o : Outside) (claims : Json) : SessionData :=
  ⟨(addI64 o.issuedAt (asI64 t.cfg.sessionTtlSecs)).value,claims⟩

def Task.sealSession (t : Task) (c : Crates) (o : Outside) : Except Bytes (SessionData × Bytes) := do
  let endpoints ← resolveEndpoints c o.network o.cached t.cfg
  let claims ← exchangeCode c o.network t.cfg endpoints.tokenEndpoint t.code t.codeVerifier t.nonce o.checkedAt
  let token ← seal_ c t.cfg.cookieSecret aadSession o.xnonce (c.writeSession (t.session o claims))
  .ok (t.session o claims,token)

def Task.answer (t : Task) : Except Bytes (SessionData × Bytes) → Response
  | .ok (_,token) => respond 302 [] [(ascii "location",t.returnTo),
      (ascii "set-cookie",setCookie sessionCookie token (some t.cfg.sessionTtlSecs) t.secure),
      (ascii "set-cookie",clearCookie stateCookie t.secure)]
  | .error _ => respond 502 (ascii "authentication failed") []

structure Begin where
  network : Network
  cached : Bytes → Option Endpoints
  params : LoginParams
  now : Int
  xnonce : Bytes

def Begin.state (b : Begin) (returnTo : Option Bytes) : StateData :=
  ⟨b.params.state,b.params.nonce,b.params.codeVerifier,
    (returnTo.filter fun s => ! s.isEmpty).getD (ascii "/"),(addI64 b.now stateTtlSecs).value⟩

def Begin.sealState (b : Begin) (c : Crates) (cfg : OidcConfig) (returnTo : Option Bytes) :
    Except Bytes (Bytes × Bytes) := do
  let endpoints ← resolveEndpoints c b.network b.cached cfg
  let authorizeUrl ← c.authorizeUrl endpoints.authorizationEndpoint cfg b.params
  let token ← seal_ c cfg.cookieSecret aadState b.xnonce (c.writeState (b.state returnTo))
  .ok (authorizeUrl,token)

inductive Begun where
  | configError (message : Bytes)
  | failed (error : Bytes)
  | responded (cfg : OidcConfig) (data : StateData) (response : Response)
  deriving DecidableEq

def beginLogin (c : Crates) (cfg : Json) (visit : Visit) (returnTo : Option Bytes) (b : Begin) : Begun :=
  match readConfig cfg with
  | none => .configError (ascii "zs_oidc_begin_login: cfg handle is not a JSON object")
  | some cfg =>
    if ! cfg.usable then
      .configError (ascii "zs_oidc_begin_login: missing client_id/redirect_uri or weak cookie_secret")
    else
    match b.sealState c cfg returnTo with
    | .error e => .failed (ascii "zs_oidc_begin_login: " ++ e)
    | .ok (authorizeUrl,token) => .responded cfg (b.state returnTo)
        (respond 302 [] [(ascii "location",authorizeUrl),
          (ascii "set-cookie",setCookie stateCookie token (some stateTtlSecs) visit.secure)])

section
variable {claims : Json} {now : Int}

theorem audienceListed {clientId : Bytes} (ok : audienceOk claims clientId = true) :
    claims.get (ascii "aud") = some (.string clientId) ∨
      ∃ items, claims.get (ascii "aud") = some (.array items) ∧ .string clientId ∈ items := by
  unfold audienceOk at ok
  split at ok
  · rename_i s found
    exact .inl (by rw [found,eq_of_beq ok])
  · rename_i items found
    obtain ⟨v,listed,same⟩ := List.any_eq_true.mp ok
    rw [Json.asStrIff.mp (eq_of_beq same)] at listed
    exact .inr ⟨items,found,listed⟩
  · cases ok

theorem issuerGiven {issuer : Bytes} (ok : issuerOk claims (some issuer) = true) :
    claims.get (ascii "iss") = some (.string issuer) ↔ issuer ≠ [] ∨ claims.get (ascii "iss") = some (.string []) := by
  have same := eq_of_beq ok
  cases read : (claims.get (ascii "iss")).bind Json.asStr with
  | none =>
    rw [read] at same
    subst same
    simp
  | some s =>
    rw [read,Option.getD_some] at same
    subst same
    obtain ⟨v,found,text⟩ := Option.bind_eq_some_iff.mp read
    rw [found,Json.asStrIff.mp text]
    simp only [true_iff]
    by_cases empty : s = []
    · exact .inr (by rw [empty])
    · exact .inl empty

/- An expiry the code reads is checked; one it does not read may lie in the past. -/
theorem expiryGiven (passed : ¬ (expClaim claims ≠ 0 ∧ expClaim claims < now)) :
    (∃ n, claims.get (ascii "exp") = some (.number n) ∧ (now : ℚ) ≤ n.value) ↔
      ∃ n, claims.get (ascii "exp") = some (.number n) ∧ ((∃ v, n.asI64 = some v ∧ v ≠ 0) ∨ (now : ℚ) ≤ n.value) := by
  constructor
  · rintro ⟨n,found,late⟩
    exact ⟨n,found,.inr late⟩
  · rintro ⟨n,found,⟨v,read,nonzero⟩ | late⟩
    · have value : expClaim claims = v := by
        simp [expClaim,found,Json.asNumber,read]
      rw [value] at passed
      have late : now ≤ v := by
        by_contra early
        exact passed ⟨nonzero,Int.not_le.mp early⟩
      refine ⟨n,found,?_⟩
      cases n with
      | float bits => cases read
      | integer m =>
        simp only [Number.asI64] at read
        split at read
        · cases read
          exact Int.cast_le.mpr late
        · cases read
    · exact ⟨n,found,late⟩

theorem validated {expectedIssuer : Option Bytes} {clientId expectedNonce : Bytes}
    (ok : validateClaims claims expectedIssuer clientId expectedNonce now = .ok ()) :
    issuerOk claims expectedIssuer = true ∧ audienceOk claims clientId = true ∧
      ¬ (expClaim claims ≠ 0 ∧ expClaim claims < now) ∧ claims.get (ascii "nonce") = some (.string expectedNonce) := by
  unfold validateClaims at ok
  split at ok
  · cases ok
  · rename_i issuer
    split at ok
    · cases ok
    · rename_i audience
      split at ok
      · cases ok
      · rename_i expiry
        refine ⟨by simpa using issuer,by simpa using audience,expiry,?_⟩
        split at ok
        · rename_i nonce read
          split at ok
          · cases ok
          · rename_i same
            obtain ⟨v,found,text⟩ := Option.bind_eq_some_iff.mp read
            rw [found,Json.asStrIff.mp text,not_not.mp same]
        · cases ok

end

theorem exchanged {c network cfg tokenEndpoint code codeVerifier expectedNonce now} {claims}
    (ok : exchangeCode c network cfg tokenEndpoint code codeVerifier expectedNonce now = .ok claims) :
    validateClaims claims cfg.issuer cfg.clientId expectedNonce now = .ok () := by
  obtain ⟨answer,_,ok⟩ := ByteReader.bindOk ok
  obtain ⟨idToken,_,ok⟩ := ByteReader.bindOk ok
  obtain ⟨parsed,_,ok⟩ := ByteReader.bindOk ok
  obtain ⟨_,checked,ok⟩ := ByteReader.bindOk ok
  cases ok
  exact checked

/- What has to hold of a request for the callback's task to be posted. -/
structure Posted (c : Crates) (cfg : Json) (visit : Visit) (now : Int) (task : Task) (token : Bytes)
    (data : StateData) : Prop where
  config : readConfig cfg = some task.cfg
  usable : task.cfg.usable = true
  cookie : (visit.header (ascii "cookie")).bind (cookieValue · stateCookie) = some token
  opened : openState c task.cfg.cookieSecret token now = some data
  state : visit.queryParam (ascii "state") = some data.state
  code : visit.queryParam (ascii "code") = some task.code
  kept : task.nonce = data.nonce ∧ task.codeVerifier = data.codeVerifier ∧ task.returnTo = data.returnTo

theorem posted {c cfg visit now} {task} (started : handleCallback c cfg visit now = .posted task) :
    ∃ token data, Posted c cfg visit now task token data := by
  unfold handleCallback at started
  split at started
  · cases started
  · rename_i read
    split at started
    · cases started
    · rename_i usable
      split at started
      · rename_i code queryState hasCode hasState
        split at started
        · cases started
        · rename_i header hasHeader
          split at started
          · cases started
          · rename_i token hasToken
            split at started
            · cases started
            · rename_i data opened
              split at started
              · cases started
              · rename_i same
                cases started
                exact ⟨token,data,read,by simpa using usable,by rw [hasHeader]; exact hasToken,opened,
                  by rw [hasState,not_not.mp same],hasCode,rfl,rfl,rfl⟩
      · cases started

theorem opensFresh {c secret token now} {data} (opened : openState c secret token now = some data) :
    ∃ plaintext, open_ c secret aadState token = some plaintext ∧ c.readState plaintext = some data ∧
      now ≤ data.exp := by
  simp only [openState,bind,Option.bind_eq_some_iff,Option.ite_none_left_eq_some] at opened
  obtain ⟨plaintext,decrypted,data',read,fresh,same⟩ := opened
  cases same
  exact ⟨plaintext,decrypted,read,Int.not_lt.mp fresh⟩

end Oidc
end ZeroServe
