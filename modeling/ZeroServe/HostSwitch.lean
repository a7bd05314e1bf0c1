import ZeroServe.HostLookup
import ZeroServe.ErrorRoutes

/-! Routes that are told apart by one exact host each: the switch over the ids of the hosts, and the same routes one
after another with their host matchers. -/
namespace ZeroServe.HostDispatch
open ByteText Host RouteProgram RouteGenerator
open RegexMatch (writeCstr zsCaddyClampLen cBufferFitsCap containsPlaceholder)

variable {σ : Type}

def hostCap : Nat := 256

structure HostHoist where
  raw : Int
  host : Bytes
  id : Int
  deriving DecidableEq

def hostHoistLoad (table : HostTable) (value : Bytes) : HostHoist :=
  let buffer := writeCstr value hostCap
  let host := zsCaddyHostNormalize (buffer.bytes.take (zsCaddyClampLen buffer.raw hostCap))
  ⟨buffer.raw,host,zsCaddyHostTableLookup host (renderHostTable table)⟩

def HostHoist.fits (hoist : HostHoist) : Bool := cBufferFitsCap hoist.raw hostCap

inductive HostCheck where
  | expanded (template : Bytes)
  | fuzzy (pattern : Bytes)
  | literal (id : Nat)
  deriving DecidableEq

theorem exactPattern {normalized} (plain : caddyHostFuzzy normalized = false) : Exact (lower normalized) := by
  refine ⟨lowerIdem _,fun mem => ?_⟩
  have star : ∀ b, lowerByte b = 42 → b = 42 := by decide +kernel
  obtain ⟨b,inside,same⟩ := List.mem_map.mp mem
  rw [star b same] at inside
  simp [caddyHostFuzzy,inside] at plain

inductive RouteMatcher (σ : Type) where
  | host (values : List Bytes)
  | other (m : Matcher σ)

/- A route with what its server brings; the matchers of a set stand in the order in which they
are tested. -/
structure CompiledRoute (σ : Type) where
  matcherSets : List (List (RouteMatcher σ))
  handlers : List (Handler σ)
  terminal : Bool
  group : Option Nat
  errorRoutes : Routes σ
  namedRoutes : Bytes → Option (Route σ (Handler σ))

/- `toAscii` is `idna::domain_to_ascii`, `header` the Host header of a request and `expand` the
expansion of placeholders. -/
variable (toAscii : Bytes → Option Bytes) (header : Core σ → Bytes) (expand : Core σ → Bytes → Bytes)

def emitHostChecks : HostTable → List Bytes → List Bytes → Option (HostTable × List HostCheck)
  | table,_,[] => some (table,[])
  | table,seen,value::later => do
    let normalized ← toAscii value
    if lower normalized ∈ seen then none
    else if containsPlaceholder value then do
      let (table,checks) ← emitHostChecks table (lower normalized::seen) later
      some (table,.expanded value::checks)
    else if plain : caddyHostFuzzy normalized = false then do
      let (table,id) := table.hostTableId (lower normalized) (exactPattern plain)
      let (table,checks) ← emitHostChecks table (lower normalized::seen) later
      some (table,.literal id::checks)
    else do
      let (table,checks) ← emitHostChecks table (lower normalized::seen) later
      some (table,.fuzzy normalized::checks)

def HostCheck.holds (final : HostTable) (hoist : HostHoist) (core : Core σ) : HostCheck → Bool
  | .expanded template =>
    let buffer := writeCstr (expand core template) hostCap
    cBufferFitsCap buffer.raw hostCap &&
      zsCaddyHostMatch hoist.host (buffer.bytes.take (zsCaddyClampLen buffer.raw hostCap))
  | .fuzzy pattern => zsCaddyHostMatch hoist.host pattern
  | .literal id => hoist.id == final.zsHostId id

abbrev Unresolved (σ : Type) := HostTable → Matcher σ

def emitHostMatch (table : HostTable) (values : List Bytes) : Option (HostTable × Unresolved σ) := do
  let (table,checks) ← emitHostChecks toAscii table [] values
  some (table,fun final =>
    ⟨fun core =>
      let hoist := hostHoistLoad final (header core)
      some (core,hoist.fits && checks.any (HostCheck.holds expand final hoist core)),values.isEmpty,false⟩)

def emitMatcher (table : HostTable) : RouteMatcher σ → Option (HostTable × Unresolved σ)
  | .host values => emitHostMatch toAscii header expand table values
  | .other m => some (table,fun _ => m)

def allOf (a b : Matcher σ) : Matcher σ where
  eval core := match a.eval core with
    | some (core,true) => b.eval core
    | stopped => stopped
  staticallyFalse := a.staticallyFalse || b.staticallyFalse
  canSetError := a.canSetError || b.canSetError

def oneOf (a b : Matcher σ) : Matcher σ where
  eval core := match a.eval core with
    | some (core,false) => b.eval core
    | stopped => stopped
  staticallyFalse := a.staticallyFalse && b.staticallyFalse
  canSetError := a.canSetError || b.canSetError

def always : Matcher σ := ⟨fun core => some (core,true),false,false⟩
def never : Matcher σ := ⟨fun core => some (core,false),true,false⟩

def emitMatcherSet : HostTable → List (RouteMatcher σ) → Option (HostTable × Unresolved σ)
  | table,[] => some (table,fun _ => always)
  | table,matcher::later => do
    let (table,first) ← emitMatcher toAscii header expand table matcher
    let (table,rest) ← emitMatcherSet table later
    some (table,fun final => allOf (first final) (rest final))

def emitMatcherSets : HostTable → List (List (RouteMatcher σ)) → Option (HostTable × Unresolved σ)
  | table,[] => some (table,fun _ => never)
  | table,set::later => do
    let (table,first) ← emitMatcherSet toAscii header expand table set
    let (table,rest) ← emitMatcherSets table later
    some (table,fun final => oneOf (first final) (rest final))

def emitRouteMatch (table : HostTable) (route : CompiledRoute σ) : Option (HostTable × Unresolved σ) :=
  if route.matcherSets.isEmpty then some (table,fun _ => always)
  else emitMatcherSets toAscii header expand table route.matcherSets

def matcherCanSetError : RouteMatcher σ → Bool
  | .host _ => false
  | .other m => m.canSetError

def routeMatchCanSetError (route : CompiledRoute σ) : Bool :=
  route.matcherSets.any fun set => set.any matcherCanSetError

def routeSingleExactHostId (table : HostTable) (route : CompiledRoute σ) : Option (HostTable × Option Nat) :=
  match route.matcherSets with
  | [[.host [host]]] =>
    if containsPlaceholder host then some (table,none)
    else do
      let normalized ← toAscii host
      if plain : caddyHostFuzzy normalized = false then
        let (table,id) := table.hostTableId (lower normalized) (exactPattern plain)
        some (table,some id)
      else some (table,none)
  | _ => some (table,none)

def exactHostIds : HostTable → List Nat → List (CompiledRoute σ) → Option (HostTable × Option (List Nat))
  | table,_,[] => some (table,some [])
  | table,seen,route::later =>
    if ! route.terminal || route.group.isSome || ! route.errorRoutes.isEmpty || routeMatchCanSetError route then
      some (table,none)
    else do
      match ← routeSingleExactHostId toAscii table route with
      | (table,none) => some (table,none)
      | (table,some id) =>
        if id ∈ seen then some (table,none)
        else do
          let (table,ids) ← exactHostIds table (id::seen) later
          some (table,ids.map (id::·))

def CompiledRoute.server (route : CompiledRoute σ) : Server σ :=
  ⟨[],route.errorRoutes,route.namedRoutes,0,fun _ => none⟩

def CompiledRoute.matched (route : CompiledRoute σ) (m : Matcher σ) : Route σ (Handler σ) :=
  ⟨some m,route.handlers,route.terminal,route.group,none⟩

def switchValue (final : HostTable) (core : Core σ) : Option Nat :=
  let hoist := hostHoistLoad final (header core)
  if hoist.fits && decide (0 ≤ hoist.id) then some hoist.id.toNat else none

def hostCases (fuel : Nat) (final : HostTable) (routes : List (CompiledRoute σ × Nat)) : Option (Code σ) :=
  switchCases fuel (switchValue header final)
    (routes.map fun (route,id) => (route.server.generator,route.handlers,final.zsHostId id))

/- `none` inside is the answer that there is no switch for these routes. -/
def emitExactHostRouteSwitch (fuel groups : Nat) (table : HostTable) (routes : List (CompiledRoute σ)) :
    Option (HostTable × Option (HostTable → Option (Code σ))) :=
  if routes.length < 2 || groups != 0 then some (table,none)
  else do
    let (table,ids) ← exactHostIds toAscii table [] routes
    some (table,ids.map fun ids final => hostCases header fuel final (routes.zip ids))

def routeSequence (fuel : Nat) (final : HostTable) :
    List (CompiledRoute σ × Unresolved σ) → Bool → Option (Code σ)
  | [],_ => some emptyHandler
  | (route,matched)::later,pendingCleanupNeeded => do
    let (body,stopped) ← emitServerRoute fuel route.server (route.matched (matched final)) pendingCleanupNeeded
    let more ← routeSequence fuel final later (pendingCleanupNeeded || (! route.terminal && ! stopped))
    some (.seq (.call body) more)

def routeMatches : HostTable → List (CompiledRoute σ) → Option (HostTable × List (Unresolved σ))
  | table,[] => some (table,[])
  | table,route::later => do
    let (table,matched) ← emitRouteMatch toAscii header expand table route
    let (table,rest) ← routeMatches table later
    some (table,matched::rest)

def emitRouteSequence (fuel : Nat) (table : HostTable) (routes : List (CompiledRoute σ)) :
    Option (HostTable × (HostTable → Option (Code σ))) := do
  let (table,matched) ← routeMatches toAscii header expand table routes
  some (table,fun final => routeSequence fuel final (routes.zip matched) false)
end ZeroServe.HostDispatch
