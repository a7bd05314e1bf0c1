import ZeroServe.H1Head
import ZeroServe.RequestPath

/-! Which host a request is for. The server checks it against the TLS server name and a list
of host names before the scripts run; the scripts see the Host header. -/
namespace ZeroServe.Host
open ByteText H1 RequestPath

inductive Protocol where
  | h1
  | h2
  deriving DecidableEq

def HeaderValue.fromStr (s : Bytes) : Option HeaderValue :=
  if s.all visibleByte then HeaderValue.fromBytes s else none

def ensureHostHeader (head : RequestHead) : RequestHead :=
  if head.headers.containsKey .host then head else
  match head.uri.authority with
  | none => head
  | some authority =>
    match HeaderValue.fromStr authority with
    | none => head
    | some value => {head with headers := head.headers.insert .host value}

def firstHost (head : RequestHead) : Option Bytes := (head.headers.get .host).bind HeaderValue.toStr

def requestAuthorityOrHost (head : RequestHead) : Option Bytes :=
  match head.uri.authority with
  | some authority => some authority
  | none => firstHost head

def hostnameWithoutPort (host : Bytes) : Bytes :=
  if host.head? = some 91 then
    let first := match find [93,58] host with
      | some i => host.take i
      | none => host
    ((first.dropWhile (· == 91)).reverse.dropWhile (· == 93)).reverse
  else if 1 < host.count 58 then host
  else host.takeWhile (· != 58)

def sameHostname (left right : Bytes) : Bool :=
  eqIgnoreAsciiCase (hostnameWithoutPort left) (hostnameWithoutPort right)

def requestAuthoritySniMismatch (head : RequestHead) (innerSni : Option Bytes) : Bool :=
  match innerSni with
  | none => false
  | some sni =>
    match requestAuthorityOrHost head with
    | none => true
    | some authority => ! sameHostname authority sni

def isValidHostname (host : Bytes) (allowed : List Bytes) : Bool :=
  allowed.isEmpty ||
    allowed.any fun a => lower (hostnameWithoutPort a) == lower (hostnameWithoutPort host)

def zsCaddyHostNormalize (host : Bytes) : Bytes :=
  if 2 ≤ host.length ∧ host.head? = some 91 then lower (host.tail.takeWhile (· != 93))
  else if host.count 58 = 1 then lower (host.takeWhile (· != 58))
  else lower host

def scriptHost (head : RequestHead) : Bytes :=
  ((head.headers.getAll .host).filterMap HeaderValue.toStr).getLast?.getD []

def prepared : Protocol → RequestHead → RequestHead
  | .h1,head => head
  | .h2,head => ensureHostHeader head

def validated (p : Protocol) (head : RequestHead) : Bytes :=
  match p with
  | .h1 => (firstHost head).getD []
  | .h2 => (requestAuthorityOrHost head).getD []

def passedToScripts (p : Protocol) (head : RequestHead) (sni : Option Bytes) (allowed : List Bytes) :
    Bool :=
  ! requestAuthoritySniMismatch (prepared p head) sni &&
  (allowed.isEmpty || isValidHostname (validated p (prepared p head)) allowed) &&
  (normalizeRequestPath head.uri.path).isSome

/- The host that is routed on is the one that was checked. -/
structure RoutedAsChecked (p : Protocol) (head : RequestHead) (sni : Option Bytes) (allowed : List Bytes) :
    Prop where
  named : ∀ s, sni = some s → zsCaddyHostNormalize (scriptHost (prepared p head)) = lower s
  listed : allowed ≠ [] → isValidHostname (scriptHost (prepared p head)) allowed = true

def plainName (s : Bytes) : Bool := s != [] && s.head? != some 91 && s.count 58 != 1

/- The Host header the scripts see and the carriers that are checked give one name. -/
structure OneHost (p : Protocol) (head : RequestHead) : Prop where
  named : ∀ a, requestAuthorityOrHost (prepared p head) = some a →
    plainName (hostnameWithoutPort a) = true →
    zsCaddyHostNormalize (scriptHost (prepared p head)) = lower (hostnameWithoutPort a)
  listed : lower (hostnameWithoutPort (scriptHost (prepared p head))) =
    lower (hostnameWithoutPort (validated p (prepared p head)))

theorem takeWhileColon {s : Bytes} (zero : s.count 58 = 0) : s.takeWhile (· != 58) = s := by
  refine List.takeWhile_eq_self_iff.mpr fun b mem => ?_
  simp only [bne_iff_ne]
  rintro rfl
  exact List.count_eq_zero.mp zero mem

theorem plainWithoutPort {s : Bytes} (plain : plainName s = true) : hostnameWithoutPort s = s := by
  simp only [plainName,Bool.and_eq_true,bne_iff_ne,ne_eq] at plain
  obtain ⟨⟨-,bracket⟩,port⟩ := plain
  unfold hostnameWithoutPort
  rw [if_neg bracket]
  split
  · rfl
  · rename_i few
    exact takeWhileColon (by omega)

theorem plainLower (s : Bytes) : plainName (lower s) = plainName s := by
  have bracket : ∀ b, lowerByte b = 91 ↔ b = 91 := by decide +kernel
  have colon : ∀ b, lowerByte b = 58 ↔ b = 58 := by decide +kernel
  have count : (lower s).count 58 = s.count 58 := by
    unfold lower List.count
    rw [List.countP_map]
    refine List.countP_congr fun b _ => ?_
    simp [colon]
  cases s with
  | nil => rfl
  | cons b later =>
    have first : (lower (b::later)).head? = some 91 ↔ (b::later).head? = some 91 := by
      simp [lower,bracket]
    have nonempty : lower (b::later) ≠ [] := by simp [lower]
    rw [Bool.eq_iff_iff]
    simp only [plainName,Bool.and_eq_true,bne_iff_ne,ne_eq,count,first,nonempty,reduceCtorEq]

theorem validHostname {host allowed} (filled : allowed ≠ []) : isValidHostname host allowed = true ↔
      ∃ a ∈ allowed, lower (hostnameWithoutPort a) = lower (hostnameWithoutPort host) := by
  simp [isValidHostname,filled]

theorem matchedAuthority {head s} (h : requestAuthoritySniMismatch head (some s) = false) :
    ∃ a, requestAuthorityOrHost head = some a ∧ lower (hostnameWithoutPort a) = lower (hostnameWithoutPort s) := by
  unfold requestAuthoritySniMismatch at h
  cases carrier : requestAuthorityOrHost head with
  | none => simp [carrier] at h
  | some a =>
    refine ⟨a,rfl,?_⟩
    simpa [carrier,sameHostname,eqIgnoreAsciiCase] using h

theorem checkedNamed {p head s} (one : OneHost p head) (plain : plainName s = true)
    (matched : requestAuthoritySniMismatch (prepared p head) (some s) = false) :
    zsCaddyHostNormalize (scriptHost (prepared p head)) = lower s := by
  obtain ⟨a,carrier,same⟩ := matchedAuthority matched
  rw [plainWithoutPort plain] at same
  have plainCarrier : plainName (hostnameWithoutPort a) = true := by
    rw [← plainLower,same,plainLower]
    exact plain
  rw [one.named a carrier plainCarrier,same]

theorem routedAsCheckedExact (p : Protocol) (head : RequestHead) :
    (∀ sni allowed, (∀ s, sni = some s → plainName s = true) →
      passedToScripts p head sni allowed = true → RoutedAsChecked p head sni allowed) ↔
    normalizeRequestPath head.uri.path = none ∨ OneHost p head := by
  constructor
  · intro always
    cases path : normalizeRequestPath head.uri.path with
    | none => exact .inl rfl
    | some n =>
      refine .inr ⟨?_,?_⟩
      · intro a carrier plain
        have agrees : requestAuthoritySniMismatch (prepared p head) (some (hostnameWithoutPort a)) = false := by
          simp [requestAuthoritySniMismatch,carrier,sameHostname,plainWithoutPort plain,eqIgnoreAsciiCase]
        refine (always (some (hostnameWithoutPort a)) [] ?_ ?_).named _ rfl
        · rintro s ⟨⟩
          exact plain
        · simp [passedToScripts,agrees,path]
      · have self : isValidHostname (validated p (prepared p head)) [validated p (prepared p head)] = true := by
          simp [isValidHostname]
        have listed := (always none [validated p (prepared p head)] (by simp) (by
          simp [passedToScripts,requestAuthoritySniMismatch,self,path])).listed (by simp)
        obtain ⟨a,mem,same⟩ := (validHostname (by simp)).mp listed
        cases List.mem_singleton.mp mem
        exact same.symm
  · rintro (bad | one) sni allowed plain passed
    · simp [passedToScripts,bad] at passed
    · simp only [passedToScripts,Bool.and_eq_true,Bool.not_eq_true'] at passed
      obtain ⟨⟨matched,valid⟩,-⟩ := passed
      constructor
      · rintro s rfl
        exact checkedNamed one (plain s rfl) matched
      · intro given
        have valid : isValidHostname (validated p (prepared p head)) allowed = true := by
          simpa [given] using valid
        obtain ⟨a,mem,same⟩ := (validHostname given).mp valid
        exact (validHostname given).mpr ⟨a,mem,same.trans one.listed.symm⟩

def twoHosts : RequestHead where
  method := .get
  uri := ⟨some (ascii "http"),some (ascii "a.test"),ascii "/",none,by decide +kernel,by decide +kernel,
    by decide +kernel⟩
  version := .http11
  headers := ⟨[(.host,⟨ascii "b.test",by decide +kernel⟩)]⟩

theorem absoluteFormMisrouted : ¬∀ p head sni allowed, passedToScripts p head sni allowed = true →
      RoutedAsChecked p head sni allowed := by
  intro always
  have routed := always .h1 twoHosts (some (ascii "a.test")) [] (by decide +kernel)
  exact absurd (routed.named _ rfl) (by decide +kernel)

end ZeroServe.Host
