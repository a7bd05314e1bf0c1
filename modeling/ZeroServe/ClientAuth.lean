import ZeroServe.HostLookup
import ZeroServe.SiteKeys

/-! Client certificates of site blocks. A block's policy is chosen by the TLS server name,
its routes by the Host header. -/
namespace ZeroServe.ClientAuth
open ByteText
open H1 (RequestHead)
open Host
open HostDispatch (zsCaddyHostMatch caddyHostFuzzy)
open SiteKeys (Address compileEncodedMatcherSets)
open RegexMatch (writeCstr zsCaddyClampLen cBufferFitsCap expandCaddyPlaceholders containsPlaceholder)

inductive AuthMode where
  | request
  | require
  | verifyIfGiven
  | requireAndVerify
  deriving DecidableEq

structure Auth where
  mode : AuthMode
  trustedCas : List Bytes
  deriving DecidableEq

structure Block where
  keys : List Address
  auths : List Auth
  deriving DecidableEq

def tlsPolicySniHosts : List Address → List Bytes → List Bytes
  | [],hosts => hosts
  | addr::later,hosts =>
    if addr.host = [] then []
    else tlsPolicySniHosts later (if hosts.contains addr.host then hosts else hosts ++ [addr.host])

structure Policy where
  sni : List Bytes
  auth : Auth
  deriving DecidableEq

def Block.policies (block : Block) : List Policy :=
  block.auths.map fun auth => ⟨tlsPolicySniHosts block.keys [],auth⟩

def loadText (value : Bytes) (cap : Nat) : Bytes × Bool :=
  let buffer := writeCstr value cap
  (buffer.bytes.take (zsCaddyClampLen buffer.raw cap),cBufferFitsCap buffer.raw cap)

def zsCaddyEqFold (a b : Bytes) : Bool := eqIgnoreAsciiCase a b

def tlsPolicySniCondition (policy : Policy) (sni : Option Bytes) : Bool :=
  policy.sni.isEmpty || policy.sni.any fun host =>
    let (text,fits) := loadText (sni.getD []) 256
    fits && zsCaddyEqFold text host

/- What the code takes from outside: the IDNA library, the placeholders of the request and
its path matcher. -/
structure Env where
  domainToAscii : Bytes → Bytes
  resolve : Bytes → Option Bytes
  pathMatch : Bytes → Bool

def hostCheck (env : Env) (host value : Bytes) : Bool :=
  if containsPlaceholder value then
    let (pattern,fits) := loadText (expandCaddyPlaceholders env.resolve value) 256
    fits && zsCaddyHostMatch host pattern
  else if caddyHostFuzzy (env.domainToAscii value) then
    zsCaddyHostMatch host (env.domainToAscii value)
  else host == lower (env.domainToAscii value)

def hostMatch (env : Env) (header : Bytes) (values : List Bytes) : Bool :=
  let (text,fits) := loadText header 256
  fits && values.any (hostCheck env (zsCaddyHostNormalize text))

def Block.matched (env : Env) (header : Bytes) (block : Block) : Bool :=
  let sets := compileEncodedMatcherSets block.keys
  sets.isEmpty || sets.any fun set => set.host.all (hostMatch env header) && set.path.all env.pathMatch

def zsCaddyTlsClientAuth (verify : Bytes → List Bytes → Bool) (leaf : Option Bytes) (auth : Auth) : Bool :=
  match leaf with
  | none => auth.mode == .verifyIfGiven
  | some leaf =>
    match auth.mode with
    | .request => true
    | .require => true
    | .verifyIfGiven => verify leaf auth.trustedCas
    | .requireAndVerify => verify leaf auth.trustedCas

def applicable (blocks : List Block) (sni : Option Bytes) : List Policy :=
  (blocks.flatMap Block.policies).filter fun policy => tlsPolicySniCondition policy sni

def tlsRequestChecks (blocks : List Block) (sni : Option Bytes) (verify : Bytes → List Bytes → Bool)
    (leaf : Option Bytes) : Bool :=
  (blocks.flatMap Block.policies).all fun policy =>
    ! tlsPolicySniCondition policy sni || zsCaddyTlsClientAuth verify leaf policy.auth

structure Arrival where
  protocol : Protocol
  head : RequestHead
  sni : Option Bytes

def reaches (env : Env) (allowed : List Bytes) (blocks : List Block) (block : Block) (a : Arrival) : Bool :=
  passedToScripts a.protocol a.head a.sni allowed &&
  blocks.find? (Block.matched env (scriptHost (prepared a.protocol a.head))) == some block

def runsHandlers (env : Env) (allowed : List Bytes) (blocks : List Block) (block : Block) (a : Arrival)
    (verify : Bytes → List Bytes → Bool) (leaf : Option Bytes) : Bool :=
  reaches env allowed blocks block a && tlsRequestChecks blocks a.sni verify leaf

def Demanded (policies : List Policy) (trustedCas : List Bytes) : Prop :=
  (∃ q ∈ policies, q.auth.mode ≠ .verifyIfGiven) ∧
  (∃ q ∈ policies, (q.auth.mode = .verifyIfGiven ∨ q.auth.mode = .requireAndVerify) ∧ q.auth.trustedCas = trustedCas)

theorem checksIff {blocks sni} {verify : Bytes → List Bytes → Bool} {leaf} :
    tlsRequestChecks blocks sni verify leaf = true ↔
      ∀ q ∈ applicable blocks sni, zsCaddyTlsClientAuth verify leaf q.auth = true := by
  simp only [tlsRequestChecks,applicable,List.all_eq_true,List.mem_filter,Bool.or_eq_true, Bool.not_eq_true',and_imp]
  refine forall_congr' fun q => forall_congr' fun _ => ?_
  cases tlsPolicySniCondition q sni <;> simp

theorem demandedVerifies {policies cas} (demanded : Demanded policies cas) {verify : Bytes → List Bytes → Bool} {leaf}
    (passed : ∀ q ∈ policies, zsCaddyTlsClientAuth verify leaf q.auth = true) :
    ∃ cert, leaf = some cert ∧ verify cert cas = true := by
  obtain ⟨⟨q,known,mode⟩,⟨r,member,checks,same⟩⟩ := demanded
  cases leaf with
  | none =>
    have given := passed q known
    simp only [zsCaddyTlsClientAuth,beq_iff_eq] at given
    exact (mode given).elim
  | some cert =>
    refine ⟨cert,rfl,?_⟩
    have verified := passed r member
    rcases checks with mode | mode
    · simpa only [zsCaddyTlsClientAuth,mode,same] using verified
    · simpa only [zsCaddyTlsClientAuth,mode,same] using verified

theorem undemandedPasses {policies cas} (not : ¬ Demanded policies cas) :
    ∃ verify leaf, (∀ q ∈ policies, zsCaddyTlsClientAuth verify leaf q.auth = true) ∧
      ¬ ∃ cert, leaf = some cert ∧ verify cert cas = true := by
  by_cases wanted : ∃ q ∈ policies, q.auth.mode ≠ .verifyIfGiven
  · refine ⟨fun _ asked => asked != cas,some [],fun q known => ?_,by simp⟩
    have other : (q.auth.mode = .verifyIfGiven ∨ q.auth.mode = .requireAndVerify) →
        q.auth.trustedCas ≠ cas := fun checks same => not ⟨wanted,q,known,checks,same⟩
    cases mode : q.auth.mode <;> simp_all [zsCaddyTlsClientAuth]
  · refine ⟨fun _ _ => false,none,fun q known => ?_,by simp⟩
    have lenient : q.auth.mode = .verifyIfGiven := by
      by_contra strict
      exact wanted ⟨q,known,strict⟩
    simp [zsCaddyTlsClientAuth,lenient]

theorem clientAuthExact (env : Env) (allowed : List Bytes) (blocks : List Block) (block : Block)
    (a : Arrival) (trustedCas : List Bytes) :
    (∀ verify leaf, runsHandlers env allowed blocks block a verify leaf = true →
      ∃ cert, leaf = some cert ∧ verify cert trustedCas = true) ↔
    reaches env allowed blocks block a = false ∨ Demanded (applicable blocks a.sni) trustedCas := by
  simp only [runsHandlers,Bool.and_eq_true,checksIff]
  constructor
  · intro enforced
    by_cases reached : reaches env allowed blocks block a = true
    · refine .inr ?_
      by_contra not
      obtain ⟨verify,leaf,passed,unverified⟩ := undemandedPasses not
      exact unverified (enforced verify leaf ⟨reached,passed⟩)
    · exact .inl (by simpa using reached)
  · rintro (away | demanded) verify leaf ⟨reached,passed⟩
    · simp [away] at reached
    · exact demandedVerifies demanded passed

def strictAuth : Auth := ⟨.requireAndVerify,[ascii "ca"]⟩
def wildcardBlock : Block := ⟨[⟨ascii "*.a.test",[]⟩],[strictAuth]⟩
def literalBlock : Block := ⟨[⟨ascii "b.test",[]⟩],[strictAuth]⟩

def asciiEnv : Env := ⟨lower,fun _ => none,fun _ => true⟩

theorem slashUnmarked : (35 : UInt8) ∉ ascii "/" ++ (none : Option Bytes).getD [] := by decide +kernel

def originForm (host : H1.HeaderValue) : RequestHead where
  method := .get
  uri := ⟨none,none,ascii "/",none,Eq.refl true,Eq.refl true,slashUnmarked⟩
  version := .http11
  headers := ⟨[(.host,host)]⟩

def wildcardArrival : Arrival :=
  ⟨.h1,originForm ⟨ascii "x.a.test",by decide +kernel⟩,some (ascii "x.a.test")⟩
def namelessArrival : Arrival := ⟨.h1,originForm ⟨ascii "b.test",Eq.refl true⟩,none⟩
def absoluteArrival : Arrival := ⟨.h1,twoHosts,some (ascii "a.test")⟩

def Enforced (block : Block) (arrival : Arrival) : Prop :=
  ∀ verify leaf, runsHandlers asciiEnv [] [block] block arrival verify leaf = true →
    ∃ cert, leaf = some cert ∧ verify cert strictAuth.trustedCas = true

theorem notEnforced {block arrival}
    (handled : runsHandlers asciiEnv [] [block] block arrival (fun _ _ => false) none = true) :
    ¬Enforced block arrival := by
  intro enforced
  obtain ⟨cert,absent,-⟩ := enforced _ none handled
  cases absent

theorem unverifiedHandled : ¬Enforced wildcardBlock wildcardArrival ∧ ¬Enforced literalBlock namelessArrival ∧
      ¬Enforced literalBlock absoluteArrival :=
  ⟨notEnforced (by decide +kernel),notEnforced (by decide +kernel),notEnforced (by decide +kernel)⟩

end ZeroServe.ClientAuth
