import ZeroServe.OidcLogin
import ZeroServe.EventRun

/-! Runs of the login flow. Requests come in any order and with any cookies, and the endpoints answer what they like;
of the cipher it is assumed that it opens only what has been sealed with the same key and associated data. -/
namespace ZeroServe.Oidc
open ByteText JsonTree EventRun

variable (c : Crates)

structure Sealed where
  key : Bytes
  aad : Bytes
  plaintext : Bytes
  deriving DecidableEq

structure Pending where
  cfg : Json
  visit : Visit
  openedAt : Int
  task : Task
  started : handleCallback c cfg visit openedAt = .posted task

structure World where
  sealed : List Sealed
  logins : List (Bytes × StateData)
  pending : List (Pending c)

def World.start : World c := ⟨[],[],[]⟩

inductive Event where
  | login (cfg : Json) (visit : Visit) (returnTo : Option Bytes) (b : Begin)
  | callback (cfg : Json) (visit : Visit) (now : Int)
  | finish (i : Nat) (o : Outside)

def OidcConfig.key (cfg : OidcConfig) : Bytes := c.digest cfg.cookieSecret

variable {c}

def World.loginBegun (w : World c) (cfg : OidcConfig) (data : StateData) : World c :=
  {w with
    sealed := ⟨cfg.key c,aadState,c.writeState data⟩::w.sealed
    logins := (cfg.key c,data)::w.logins}

def World.sessionIssued (w : World c) (cfg : OidcConfig) (session : SessionData) : World c :=
  {w with sealed := ⟨cfg.key c,aadSession,c.writeSession session⟩::w.sealed}

def step (w : World c) : Event → World c
  | .login cfg visit returnTo b =>
    match beginLogin c cfg visit returnTo b with
    | .responded cfg data _ => w.loginBegun cfg data
    | _ => w
  | .callback cfg visit now =>
    match started : handleCallback c cfg visit now with
    | .posted task => {w with pending := w.pending ++ [⟨cfg,visit,now,task,started⟩]}
    | _ => w
  | .finish i o =>
    match w.pending[i]? with
    | none => w
    | some p =>
      let w := {w with pending := w.pending.eraseIdx i}
      match p.task.sealSession c o with
      | .ok (session,_) => w.sessionIssued p.task.cfg session
      | .error _ => w

def answer (w : World c) : Event → Option Response
  | .login cfg visit returnTo b =>
    match beginLogin c cfg visit returnTo b with
    | .responded _ _ response => some response
    | _ => none
  | .callback cfg visit now =>
    match handleCallback c cfg visit now with
    | .responded response => some response
    | _ => none
  | .finish i o => w.pending[i]?.map fun p => p.task.answer (p.task.sealSession c o)

def Authentic (w : World c) : Event → Prop
  | .callback cfg visit _ => ∀ config token plaintext, readConfig cfg = some config →
      (visit.header (ascii "cookie")).bind (cookieValue · stateCookie) = some token →
      open_ c config.cookieSecret aadState token = some plaintext →
      ⟨config.key c,aadState,plaintext⟩ ∈ w.sealed
  | _ => True

structure Belongs (p : Pending c) (data : StateData) : Prop where
  state : p.visit.queryParam (ascii "state") = some data.state
  fresh : p.openedAt ≤ data.exp
  nonce : p.task.nonce = data.nonce
  codeVerifier : p.task.codeVerifier = data.codeVerifier
  returnTo : p.task.returnTo = data.returnTo

structure Kept (w : World c) : Prop where
  states : ∀ s ∈ w.sealed, s.aad = aadState → ∃ data, (s.key,data) ∈ w.logins ∧ s.plaintext = c.writeState data
  begun : ∀ p ∈ w.pending, ∃ data, (p.task.cfg.key c,data) ∈ w.logins ∧ Belongs p data

theorem callbackBelongs {w : World c} (kept : Kept w) {p : Pending c}
    (authentic : Authentic w (.callback p.cfg p.visit p.openedAt)) :
    ∃ data, (p.task.cfg.key c,data) ∈ w.logins ∧ Belongs p data := by
  obtain ⟨token,data,from_⟩ := posted p.started
  obtain ⟨plaintext,decrypted,read,fresh⟩ := opensFresh from_.opened
  have sealed := authentic _ token plaintext from_.config from_.cookie decrypted
  obtain ⟨data',begun,written⟩ := kept.states _ sealed rfl
  have same : data' = data := by
    rw [show plaintext = c.writeState data' from written,c.stateRead] at read
    exact Option.some.inj read
  subst same
  exact ⟨data',begun,from_.state,fresh,from_.kept.1,from_.kept.2.1,from_.kept.2.2⟩

theorem keptStep (w : World c) (e : Event) (kept : Kept w) (authentic : Authentic w e) : Kept (step w e) := by
  cases e with
  | login cfg visit returnTo b =>
    simp only [step]
    split
    · refine ⟨?_,?_⟩
      · intro s listed state
        rcases List.mem_cons.mp listed with rfl | old
        · exact ⟨_,List.mem_cons_self,rfl⟩
        · obtain ⟨data,begun,written⟩ := kept.states s old state
          exact ⟨data,List.mem_cons_of_mem _ begun,written⟩
      · intro p listed
        obtain ⟨data,begun,belongs⟩ := kept.begun p listed
        exact ⟨data,List.mem_cons_of_mem _ begun,belongs⟩
    · exact kept
  | callback cfg visit now =>
    simp only [step]
    split
    · rename_i task started
      refine ⟨kept.states,?_⟩
      intro p listed
      rcases List.mem_append.mp listed with old | new
      · exact kept.begun p old
      · cases List.mem_singleton.mp new
        exact callbackBelongs kept authentic
    · exact kept
  | finish i o =>
    simp only [step]
    split
    · exact kept
    · have begun : ∀ p ∈ w.pending.eraseIdx i, ∃ data, (p.task.cfg.key c,data) ∈ w.logins ∧ Belongs p data :=
        fun p listed => kept.begun p (List.mem_of_mem_eraseIdx listed)
      split
      · refine ⟨?_,begun⟩
        intro s listed state
        rcases List.mem_cons.mp listed with rfl | old
        · have differ : aadSession ≠ aadState := by decide
          exact absurd state differ
        · exact kept.states s old state
      · exact ⟨kept.states,begun⟩

theorem keptRun {events} (authentic : Guarded step Authentic (World.start c) events) :
    Kept (run step (World.start c) events) :=
  runInvariant keptStep ⟨by simp [World.start],by simp [World.start]⟩ authentic

def IssuesSession (r : Response) : Prop :=
  ∃ value, (ascii "set-cookie",value) ∈ r.headers ∧ sessionCookie ++ ascii "=" <+: value

theorem stateNoSession (value : Bytes) : ¬ sessionCookie ++ ascii "=" <+: stateCookie ++ value := by
  intro begins
  have first := begins.take 12
  rw [List.take_append_of_le_length (show 12 ≤ stateCookie.length by decide)] at first
  exact absurd first (by decide)

theorem loginNoSession {cfg visit returnTo b config data r}
    (begun : beginLogin c cfg visit returnTo b = .responded config data r) : ¬ IssuesSession r := by
  unfold beginLogin at begun
  repeat' split at begun
  all_goals cases begun
  rintro ⟨value,listed,begins⟩
  rcases List.mem_cons.mp listed with same | listed
  · have name : ascii "set-cookie" = ascii "location" := congrArg Prod.fst same
    exact absurd name (by decide)
  · cases List.mem_singleton.mp listed
    exact stateNoSession _ begins

theorem callbackNoSession {cfg visit now} {r} (responded : handleCallback c cfg visit now = .responded r) :
    ¬ IssuesSession r := by
  have bare : r.headers = [] := by
    unfold handleCallback badRequest at responded
    repeat' split at responded
    all_goals first | cases responded; rfl | cases responded
  rintro ⟨value,listed,_⟩
  rw [bare] at listed
  cases listed

theorem finishSession {t : Task} {outcome : Except Bytes (SessionData × Bytes)}
    (issues : IssuesSession (t.answer outcome)) : ∃ sealed, outcome = .ok sealed := by
  cases outcome with
  | ok sealed => exact ⟨sealed,rfl⟩
  | error e =>
    obtain ⟨value,listed,_⟩ := issues
    cases listed

structure MeantHere (p : Pending c) (o : Outside) (data : StateData) (claims : Json) : Prop where
  exp : ∃ n, claims.get (ascii "exp") = some (.number n) ∧ (o.checkedAt : ℚ) ≤ n.value
  aud : claims.get (ascii "aud") = some (.string p.task.cfg.clientId) ∨
    ∃ items, claims.get (ascii "aud") = some (.array items) ∧ .string p.task.cfg.clientId ∈ items
  iss : ∀ issuer, p.task.cfg.issuer = some issuer → claims.get (ascii "iss") = some (.string issuer)
  nonce : claims.get (ascii "nonce") = some (.string data.nonce)
  state : p.visit.queryParam (ascii "state") = some data.state
  fresh : p.openedAt ≤ data.exp

/- The expiry is an integer of 64 bits other than 0 or else a number not before the clock, and an
issuer that is configured as the empty text is given as such. -/
structure Legible (cfg : OidcConfig) (claims : Json) (now : Int) : Prop where
  exp : ∃ n, claims.get (ascii "exp") = some (.number n) ∧
    ((∃ v, n.asI64 = some v ∧ v ≠ 0) ∨ (now : ℚ) ≤ n.value)
  iss : cfg.issuer = some [] → claims.get (ascii "iss") = some (.string [])

theorem meantIff {p : Pending c} {o : Outside} {data : StateData} {claims : Json} (belongs : Belongs p data)
    (valid : validateClaims claims p.task.cfg.issuer p.task.cfg.clientId p.task.nonce o.checkedAt = .ok ()) :
    MeantHere p o data claims ↔ Legible p.task.cfg claims o.checkedAt := by
  obtain ⟨issuer,audience,expiry,nonce⟩ := validated valid
  constructor
  · intro meant
    exact ⟨(expiryGiven expiry).mp meant.exp,fun empty => meant.iss [] empty⟩
  · intro legible
    refine ⟨(expiryGiven expiry).mpr legible.exp,audienceListed audience,?_,?_,belongs.state,belongs.fresh⟩
    · intro expected configured
      rw [configured] at issuer
      apply (issuerGiven issuer).mpr
      by_cases empty : expected = []
      · exact .inr (legible.iss (by rw [configured,empty]))
      · exact .inl empty
    · rw [nonce,belongs.nonce]

theorem sealedClaims {t : Task} {o : Outside} {session : SessionData} {token : Bytes}
    (ok : t.sealSession c o = .ok (session,token)) : ∃ tokenEndpoint claims, session = t.session o claims ∧
      exchangeCode c o.network t.cfg tokenEndpoint t.code t.codeVerifier t.nonce o.checkedAt = .ok claims := by
  obtain ⟨endpoints,_,ok⟩ := ByteReader.bindOk ok
  obtain ⟨claims,exchange,ok⟩ := ByteReader.bindOk ok
  obtain ⟨sealed,_,ok⟩ := ByteReader.bindOk ok
  cases ok
  exact ⟨endpoints.tokenEndpoint,claims,rfl,exchange⟩

/- An answer issues a session only at the end of a callback, for the claims that were exchanged, and
its login was begun with the same key. -/
theorem sessionMeantExact {events : List Event} (authentic : Guarded step Authentic (World.start c) events)
    {e : Event} {r : Response} (answered : answer (run step (World.start c) events) e = some r)
    (issues : IssuesSession r) : ∃ i o p data tokenEndpoint claims token, e = .finish i o ∧
      (run step (World.start c) events).pending[i]? = some p ∧
      (p.task.cfg.key c,data) ∈ (run step (World.start c) events).logins ∧
      exchangeCode c o.network p.task.cfg tokenEndpoint p.task.code p.task.codeVerifier
        p.task.nonce o.checkedAt = .ok claims ∧ p.task.sealSession c o = .ok (p.task.session o claims,token) ∧
      (MeantHere p o data claims ↔ Legible p.task.cfg claims o.checkedAt) := by
  have kept := keptRun authentic
  generalize run step (World.start c) events = w at kept answered ⊢
  cases e with
  | login cfg visit returnTo b =>
    simp only [answer] at answered
    split at answered
    · rename_i begun
      cases answered
      exact absurd issues (loginNoSession begun)
    · cases answered
  | callback cfg visit now =>
    simp only [answer] at answered
    split at answered
    · rename_i response responded
      cases answered
      exact absurd issues (callbackNoSession responded)
    · cases answered
  | finish i o =>
    obtain ⟨p,waiting,same⟩ := Option.map_eq_some_iff.mp answered
    subst same
    obtain ⟨⟨session,token⟩,ok⟩ := finishSession issues
    obtain ⟨tokenEndpoint,claims,rfl,exchange⟩ := sealedClaims ok
    obtain ⟨data,begun,belongs⟩ := kept.begun p (List.mem_of_getElem? waiting)
    exact ⟨i,o,p,data,tokenEndpoint,claims,token,rfl,waiting,begun,exchange,ok, meantIff belongs (exchanged exchange)⟩

/- A server whose cipher hides nothing and whose provider always gives the same claims. The
login of the sample seals to the empty text. -/
def sampleState : StateData := ⟨ascii "s",ascii "n",ascii "v",ascii "/",600⟩

def stateNumber (data : StateData) : Nat :=
  Encodable.encode ([data.state,data.nonce,data.codeVerifier,data.returnTo].map (List.map UInt8.toNat),data.exp)

def stateOfNumber (n : Nat) : Option StateData :=
  match (Encodable.decode n : Option (List (List Nat) × Int)) with
  | some ([state,nonce,verifier,back],exp) =>
    some ⟨state.map UInt8.ofNat,nonce.map UInt8.ofNat,verifier.map UInt8.ofNat,back.map UInt8.ofNat,exp⟩
  | _ => none

theorem stateOfNumberSame (data : StateData) : stateOfNumber (stateNumber data) = some data := by
  have back (s : Bytes) : (s.map UInt8.toNat).map UInt8.ofNat = s := by
    simp [Function.comp_def]
  rw [stateOfNumber,stateNumber,Encodable.encodek]
  simp only [List.map_cons,List.map_nil,back]

def sampleCrates (claims : Json) : Crates where
  digest := id
  encrypt _ _ _ text := some text
  decrypt _ _ _ text := some text
  encode _ := ascii "cookie"
  decode _ := some (List.replicate 24 0)
  writeState data := if data = sampleState then [] else 0::List.replicate (stateNumber data) 0
  readState
    | [] => some sampleState
    | _::rest => stateOfNumber rest.length
  writeSession _ := []
  readJson _ := some claims
  readTokenResponse _ := .ok ⟨some (ascii "header.claims.signature"),none,none⟩
  readDiscovery _ := .error []
  authorizeUrl endpoint _ _ := .ok endpoint
  stateRead data := by
    by_cases same : data = sampleState
    · simp [same]
    · simp [same,stateOfNumberSame]

def sampleConfig : Json := .object
  [(ascii "authorization_endpoint",.string (ascii "https://idp.example/authorize")),
    (ascii "client_id",.string (ascii "client-123")),
    (ascii "cookie_secret",.string (ascii "a-very-stable-cookie-secret-0123")),
    (ascii "redirect_uri",.string (ascii "https://app.example/callback")),
    (ascii "token_endpoint",.string (ascii "https://idp.example/token"))]

def sampleVisit : Visit where
  scheme := ascii "https"
  request := {
    path := ascii "/callback"
    originalPath := ascii "/callback"
    normalizedPath := ascii "callback"
    uri := ascii "/callback?code=k&state=s"
    originalUri := ascii "/callback?code=k&state=s"
    query := ascii "code=k&state=s"
    originalQuery := ascii "code=k&state=s"
    headers := AList.insert (ascii "cookie") (ascii "__zs_oidc_state=cookie") ∅
    headerValues := ∅
    queryParams := ∅
    queryParamValues := AList.insert (ascii "code") [ascii "k"] (AList.insert (ascii "state") [ascii "s"] ∅)
    caddyQueryParams := ∅
    caddyQueryValid := true
    proxyMethod := none
    proxyUri := none
    proxyHeaders := none
    uriChanged := false
    headerChanges := [] }

def sampleBegin : Begin :=
  ⟨fun _ _ => .error [],fun _ => none,⟨ascii "s",ascii "n",ascii "v",[]⟩,0,List.replicate 24 0⟩

def sampleOutside : Outside := ⟨fun _ _ => .ok (200,[]),fun _ => none,10,10,List.replicate 24 0⟩

def sampleEvents : List Event :=
  [.login sampleConfig sampleVisit none sampleBegin,.callback sampleConfig sampleVisit 5]

theorem sampleAuthentic (claims : Json) : Guarded step Authentic (World.start (sampleCrates claims)) sampleEvents := by
  refine ⟨trivial,?_,trivial⟩
  intro config token plaintext read cookie opened
  cases read
  cases opened
  exact List.mem_cons_self

def sampleClaims (exp : List (Bytes × Json)) : Json := .object
  ([(ascii "aud",.string (ascii "client-123")),(ascii "nonce",.string (ascii "n"))] ++ exp)

def sampleSession : Response := respond 302 [] [(ascii "location",ascii "/"),
  (ascii "set-cookie",setCookie sessionCookie (ascii "cookie") (some 3600) true),
  (ascii "set-cookie",clearCookie stateCookie true)]

theorem sampleIssues : IssuesSession sampleSession :=
  ⟨_,List.mem_cons_of_mem _ List.mem_cons_self,by decide⟩

def lasting : Json := sampleClaims [(ascii "exp",.number (.integer 100))]

theorem lastingMeant : ∃ (p : Pending (sampleCrates lasting)) (data : StateData),
    MeantHere p sampleOutside data lasting := by
  have answered : answer (run step (World.start (sampleCrates lasting)) sampleEvents)
      (.finish 0 sampleOutside) = some sampleSession := by decide +kernel
  obtain ⟨i,o,p,data,endpoint,claims,token,event,waiting,_,exchange,_,meant⟩ :=
    sessionMeantExact (sampleAuthentic lasting) answered sampleIssues
  cases event
  cases waiting
  cases exchange
  refine ⟨_,data,meant.mpr ⟨⟨.integer 100,rfl,.inl ⟨100,rfl,by decide⟩⟩,?_⟩⟩
  intro configured
  cases configured

theorem foreverIssued : Guarded step Authentic (World.start (sampleCrates (sampleClaims []))) sampleEvents ∧
      answer (run step (World.start (sampleCrates (sampleClaims []))) sampleEvents) (.finish 0 sampleOutside) =
        some sampleSession ∧ IssuesSession sampleSession ∧
      (∃ p, (run step (World.start (sampleCrates (sampleClaims []))) sampleEvents).pending = [p] ∧
        exchangeCode (sampleCrates (sampleClaims [])) sampleOutside.network p.task.cfg
          (ascii "https://idp.example/token") p.task.code p.task.codeVerifier p.task.nonce sampleOutside.checkedAt =
            .ok (sampleClaims [])) ∧ (sampleClaims []).get (ascii "exp") = none ∧
      issuerOk (sampleClaims []) (some []) = true ∧ (sampleClaims []).get (ascii "iss") = none :=
  ⟨sampleAuthentic _,by decide +kernel,sampleIssues,⟨_,rfl,rfl⟩,rfl,by decide,rfl⟩

end ZeroServe.Oidc
