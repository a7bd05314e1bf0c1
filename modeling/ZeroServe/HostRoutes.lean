import ZeroServe.HostSwitch
import ZeroServe.ErrorRuns

/-! The switch over exact hosts runs the handlers that the routes would run one after another,
and its table finds the host that the matcher would accept. -/
namespace ZeroServe.HostDispatch
open ByteText CSource Host RouteProgram RouteGenerator
open RegexMatch (containsPlaceholder openBrace closeBrace)
open ErrorRoutes (handlersEnd)

variable {σ : Type} {toAscii : Bytes → Option Bytes} {header : Core σ → Bytes} {expand : Core σ → Bytes → Bytes}

structure ExactRoute (toAscii : Bytes → Option Bytes) (route : CompiledRoute σ) (pattern : Bytes) : Prop where
  terminal : route.terminal = true
  ungrouped : route.group = none
  noErrors : route.errorRoutes = []
  single : ∃ value normalized, route.matcherSets = [[.host [value]]] ∧ containsPlaceholder value = false ∧
    toAscii value = some normalized ∧ caddyHostFuzzy normalized = false ∧ pattern = lower normalized

theorem singleHost {table after : HostTable} {route : CompiledRoute σ} {id}
    (found : routeSingleExactHostId toAscii table route = some (after,some id)) :
    table.entries ⊆ after.entries ∧ ∃ value normalized, route.matcherSets = [[.host [value]]] ∧
      containsPlaceholder value = false ∧ toAscii value = some normalized ∧ caddyHostFuzzy normalized = false ∧
      (lower normalized,id) ∈ after.entries := by
  unfold routeSingleExactHostId at found
  split at found
  · rename_i value sets
    split at found
    · cases found
    · rename_i literal
      simp only [bind,Option.bind_eq_some_iff] at found
      obtain ⟨normalized,ascii_,found⟩ := found
      split at found
      · rename_i plain
        cases found
        obtain ⟨kept,there⟩ := table.interned (lower normalized) (exactPattern plain)
        exact ⟨kept,value,normalized,sets,by simpa using literal,ascii_,plain,there⟩
      · cases found
  · cases found

theorem idsExact {table after : HostTable} {seen ids : List Nat} {routes : List (CompiledRoute σ)}
    (found : exactHostIds toAscii table seen routes = some (after,some ids)) :
    table.entries ⊆ after.entries ∧ ∃ patterns, List.Forall₂ (ExactRoute toAscii) routes patterns ∧
      List.Forall₂ (fun pattern id => (pattern,id) ∈ after.entries) patterns ids := by
  induction routes generalizing table seen ids with
  | nil =>
    cases found
    exact ⟨List.Subset.refl _,[],.nil,.nil⟩
  | cons route later ih =>
    rw [exactHostIds] at found
    split at found
    · cases found
    · rename_i fit
      simp only [Bool.or_eq_true,Bool.not_eq_true',not_or,Bool.not_eq_false,Bool.not_eq_true,
        Option.isSome_eq_false_iff,Option.isNone_iff_eq_none,List.isEmpty_iff] at fit
      obtain ⟨⟨⟨terminal,ungrouped⟩,noErrors⟩,_⟩ := fit
      simp only [bind,Option.bind_eq_some_iff] at found
      obtain ⟨⟨next,here⟩,single,found⟩ := found
      cases here with
      | none => cases found
      | some id =>
        dsimp only at found
        split at found
        · cases found
        · obtain ⟨⟨last,rest⟩,inner,same⟩ := Option.bind_eq_some_iff.mp found
          cases rest with
          | none => cases same
          | some rest =>
            cases same
            obtain ⟨kept,value,normalized,sets,literal,ascii_,plain,there⟩ := singleHost single
            obtain ⟨grown,patterns,precise,named⟩ := ih inner
            exact ⟨fun e mem => grown (kept mem),lower normalized::patterns,
              .cons ⟨terminal,ungrouped,noErrors,value,normalized,sets,literal,ascii_,plain,rfl⟩ precise,
              .cons (grown there) named⟩

def exactMatch (header : Core σ → Bytes) (expand : Core σ → Bytes → Bytes) (id : Nat) : Unresolved σ :=
  fun final => oneOf (allOf ⟨fun core =>
    let hoist := hostHoistLoad final (header core)
    some (core,hoist.fits && [HostCheck.literal id].any (HostCheck.holds expand final hoist core)),false,false⟩ always) never

theorem exactMatchEval (final : HostTable) (core : Core σ) (id : Nat) : (exactMatch header expand id final).eval core =
      some (core,(hostHoistLoad final (header core)).fits &&
        (hostHoistLoad final (header core)).id == final.zsHostId id) := by
  simp only [exactMatch,oneOf,allOf,List.any_cons,List.any_nil,Bool.or_false,HostCheck.holds]
  cases (hostHoistLoad final (header core)).fits &&
    (hostHoistLoad final (header core)).id == final.zsHostId id <;> rfl

variable (header expand) in
theorem matchEmitted {route pattern} (precise : ExactRoute toAscii route pattern) (table : HostTable) :
    ∃ after id, emitRouteMatch toAscii header expand table route =
      some (after,exactMatch header expand id) ∧ table.entries ⊆ after.entries ∧ (pattern,id) ∈ after.entries := by
  obtain ⟨value,normalized,sets,literal,ascii_,plain,rfl⟩ := precise.single
  obtain ⟨kept,there⟩ := table.interned (lower normalized) (exactPattern plain)
  refine ⟨_,_,?_,kept,there⟩
  rw [emitRouteMatch,sets]
  simp only [List.isEmpty_cons,Bool.false_eq_true,if_false,emitMatcherSets,emitMatcherSet,emitMatcher,
    emitHostMatch,emitHostChecks,ascii_,literal,plain,bind,Option.bind_some,List.not_mem_nil,dif_pos]
  rfl

variable (header expand) in
theorem matchesEmitted {routes patterns} (precise : List.Forall₂ (ExactRoute toAscii) routes patterns)
    (table : HostTable) :
    ∃ after ids, routeMatches toAscii header expand table routes = some (after,ids.map (exactMatch header expand)) ∧
      table.entries ⊆ after.entries ∧ List.Forall₂ (fun pattern id => (pattern,id) ∈ after.entries) patterns ids := by
  induction precise generalizing table with
  | nil => exact ⟨table,[],rfl,List.Subset.refl _,.nil⟩
  | cons here _ ih =>
    obtain ⟨next,id,emitted,kept,there⟩ := matchEmitted header expand here table
    obtain ⟨after,ids,rest,grown,named⟩ := ih next
    refine ⟨after,id::ids,?_,fun e mem => grown (kept mem),.cons (grown there) named⟩
    rw [routeMatches,emitted]
    simp only [bind,Option.bind_some,rest]
    rfl

theorem hoistSame {final final'} (same : final'.hosts = final.hosts) (value : Bytes) :
    hostHoistLoad final' value = hostHoistLoad final value := by
  have length (table : HostTable) : table.entries.length = table.hosts.length := by simp [HostTable.hosts]
  have printed : renderHostTable final' = renderHostTable final := by
    rw [renderHostTable,renderHostTable,length,length,same]
  rw [hostHoistLoad,hostHoistLoad,printed]

theorem idSame {final final' : HostTable} (same : final'.hosts = final.hosts) {pattern : Bytes} {id id'}
    (inside : (pattern,id) ∈ final.entries) (inside' : (pattern,id') ∈ final'.entries) :
    final'.zsHostId id' = final.zsHostId id := by
  obtain ⟨bound,there⟩ := final.hostId inside
  obtain ⟨bound',there'⟩ := final'.hostId inside'
  rw [same] at bound' there'
  obtain ⟨_,first⟩ := List.getElem?_eq_some_iff.mp there
  obtain ⟨_,second⟩ := List.getElem?_eq_some_iff.mp there'
  exact (hostsNodup final).getElem_inj_iff.mp (second.trans first.symm)

theorem switchPicks (final : HostTable) (core : Core σ) (n : Nat) : switchValue header final core = some n ↔
      ((hostHoistLoad final (header core)).fits && (hostHoistLoad final (header core)).id == (n : Int)) = true := by
  simp only [switchValue]
  split
  · rename_i inside
    simp only [Bool.and_eq_true,decide_eq_true_eq,beq_iff_eq,Option.some.injEq] at inside ⊢
    refine ⟨fun same => ⟨inside.1,by omega⟩,fun same => by omega⟩
  · rename_i outside
    simp only [Bool.and_eq_true,decide_eq_true_eq,beq_iff_eq,reduceCtorEq,false_iff] at outside ⊢
    exact fun same => outside ⟨same.1,by omega⟩

theorem execEnds {code later} (ends : Ends code) (ctx : Ctx σ) : exec (.seq code later) ctx = exec code ctx := by
  rw [exec]
  cases ran : exec code ctx with
  | next after => exact absurd ran (ends ctx after)
  | stop after => rfl
  | fail after => rfl

def routeBody (g : Generator σ) (handlers : Code σ) (stopped : Bool) : Code σ :=
  if stopped then handlers else .seq handlers (emitTerminalEmptyHandler g)

theorem bodyEnds {fuel} {g : Generator σ} {handlers : List (Handler σ)} {code : Code σ} {stopped : Bool}
    (emitted : emitHandlers fuel g handlers = some (code,stopped)) : Ends (routeBody g code stopped) := by
  cases stopped with
  | true => exact handlersEnd emitted
  | false => exact endsSecond (endsSecond endsRet)

def routeFunction (m : Matcher σ) (g : Generator σ) (handlers : Code σ) (stopped : Bool) : Code σ :=
  .seq .skip (.test m .skip (.seq (.whenPending .ret)
    (.seq handlers (if ! stopped then emitTerminalEmptyHandler g else .skip))) .skip)

theorem functionEmitted {fuel} {route pattern} (precise : ExactRoute toAscii route pattern) {handlers stopped}
    (emitted : emitHandlers fuel route.server.generator route.handlers = some (handlers,stopped)) (final : HostTable)
    (id : Nat) : emitServerRoute fuel route.server (route.matched (exactMatch header expand id final)) false =
      some (routeFunction (exactMatch header expand id final) route.server.generator handlers stopped,stopped) := by
  have errors : route.server.generator.errorRoutes = [] := precise.noErrors
  rw [emitServerRoute]
  simp only [errors]
  simp only [CompiledRoute.matched,precise.terminal,precise.ungrouped]
  simp only [emitted]
  rfl

theorem functionRuns {fuel} {g list handlers stopped} (emitted : emitHandlers fuel g list = some (handlers,stopped))
    (final : HostTable) (id : Nat) (ctx : Ctx σ) (clean : ctx.response = none) :
    exec (routeFunction (exactMatch header expand id final) g handlers stopped) ctx =
      if switchValue header final ctx.core = some (final.zsHostId id) then exec (routeBody g handlers stopped) ctx
      else .next ctx := by
  obtain ⟨core,response,groups,trace⟩ := ctx
  cases clean
  rw [routeFunction]
  simp only [exec,exactMatchEval,switchPicks]
  cases (hostHoistLoad final (header core)).fits &&
    (hostHoistLoad final (header core)).id == final.zsHostId id with
  | false => rfl
  | true =>
    cases stopped with
    | false => rfl
    | true => exact execEnds (handlersEnd emitted) _

theorem caseRuns {fuel} {final final' : HostTable} (same : final'.hosts = final.hosts) {pattern : Bytes} {id id'}
    (inside : (pattern,id) ∈ final.entries) (inside' : (pattern,id') ∈ final'.entries) {g : Generator σ}
    {list : List (Handler σ)} {handlers : Code σ} {stopped : Bool}
    (emitted : emitHandlers fuel g list = some (handlers,stopped)) {rest sequence : Code σ} {ctx : Ctx σ}
    (clean : ctx.response = none) (later : exec (.seq rest emptyHandler) ctx = exec sequence ctx) :
    exec (.seq (.caseOf (switchValue header final) (final.zsHostId id) (.call (routeBody g handlers stopped)) rest)
        emptyHandler) ctx =
      exec (.seq (.call (routeFunction (exactMatch header expand id' final') g handlers stopped)) sequence) ctx := by
  have picked : switchValue header final ctx.core = some (final.zsHostId id) ↔
      switchValue header final' ctx.core = some (final'.zsHostId id') := by
    rw [switchPicks,switchPicks,hoistSame same,idSame same inside inside']
  simp only [exec,functionRuns emitted final' id' ctx clean]
  by_cases taken : switchValue header final ctx.core = some (final.zsHostId id)
  · rw [if_pos taken,if_pos (picked.mp taken)]
    have ends := bodyEnds emitted
    exact (execEnds ends ctx).trans (execEnds ends ctx).symm
  · rw [if_neg taken,if_neg (taken ∘ picked.mpr)]
    exact later

theorem casesRun {fuel} {final final'} (same : final'.hosts = final.hosts) {routes patterns ids ids'}
    (precise : List.Forall₂ (ExactRoute toAscii) routes patterns)
    (named : List.Forall₂ (fun pattern id => (pattern,id) ∈ final.entries) patterns ids)
    (named' : List.Forall₂ (fun pattern id => (pattern,id) ∈ final'.entries) patterns ids') {switch}
    (switched : hostCases header fuel final (routes.zip ids) = some switch) :
    ∃ sequence, routeSequence fuel final' (routes.zip (ids'.map (exactMatch header expand))) false = some sequence ∧
      ∀ ctx, ctx.response = none → exec (.seq switch emptyHandler) ctx = exec sequence ctx := by
  induction precise generalizing ids ids' switch with
  | nil =>
    cases named
    cases named'
    cases switched
    exact ⟨emptyHandler,rfl,fun ctx _ => rfl⟩
  | @cons route pattern later _ here _ ih =>
    cases named with
    | @cons _ id _ ids inside named =>
      cases named' with
      | @cons _ id' _ ids' inside' named' =>
        simp only [List.zip_cons_cons,hostCases,List.map_cons,switchCases,bind,Option.bind_eq_some_iff] at switched
        obtain ⟨⟨handlers,stopped⟩,emitted,rest,switched,made⟩ := switched
        cases made
        obtain ⟨sequence,built,runs⟩ := ih named named' switched
        refine ⟨.seq (.call (routeFunction (exactMatch header expand id' final') route.server.generator handlers stopped))
          sequence,?_,fun ctx clean => caseRuns same inside inside' emitted clean (runs ctx clean)⟩
        simp only [List.map_cons,List.zip_cons_cons,routeSequence,bind,functionEmitted here emitted,
          Option.bind_some,here.terminal,Bool.not_true,Bool.false_and,Bool.or_false,built]

theorem switchRunsRoutes (expand : Core σ → Bytes → Bytes) (fuel groups : Nat) {start after final : HostTable}
    {routes : List (CompiledRoute σ)} {code : HostTable → Option (Code σ)} {switch : Code σ}
    (switched : emitExactHostRouteSwitch toAscii header fuel groups start routes = some (after,some code))
    (kept : after.entries ⊆ final.entries) (made : code final = some switch) :
    (∀ start', ∃ after' code', emitRouteSequence toAscii header expand fuel start' routes = some (after',code') ∧
      ∀ final', after'.entries ⊆ final'.entries → final'.hosts = final.hosts → ∃ sequence, code' final' = some sequence ∧
        ∀ ctx, ctx.response = none → exec (.seq switch emptyHandler) ctx = exec sequence ctx) ∧
    (∀ rest, readInitializer (renderHosts final.hosts ++ 59::rest) = some (packed final.hosts,10::59::splice rest)) ∧
    (Reachable final → ∀ pattern id, (pattern,id) ∈ final.entries → ∀ host,
      zsCaddyHostTableLookup (zsCaddyHostNormalize host) (renderHostTable final) = final.zsHostId id ↔
        zsCaddyHostMatch (zsCaddyHostNormalize host) pattern = true) := by
  rw [emitExactHostRouteSwitch] at switched
  split at switched
  · cases switched
  · rename_i several
    simp only [bind,Option.bind_eq_some_iff] at switched
    obtain ⟨⟨last,ids⟩,found,same⟩ := switched
    cases ids with
    | none => cases same
    | some ids =>
      cases same
      obtain ⟨_,patterns,precise,named⟩ := idsExact found
      have filled : final.hosts ≠ [] := by
        cases named with
        | nil =>
          cases precise
          exact absurd several (by simp)
        | cons inside _ => exact List.ne_nil_of_mem (List.mem_map_of_mem (kept inside))
      refine ⟨fun start' => ?_,renderedRead filled,
        fun reachable pattern id inside host => lookupMatches reachable inside host⟩
      obtain ⟨after',ids',emitted,_,named'⟩ := matchesEmitted header expand precise start'
      refine ⟨after',_,by rw [emitRouteSequence,emitted]; rfl,fun final' kept' same => ?_⟩
      exact casesRun same precise (named.imp fun _ _ inside => kept inside)
        (named'.imp fun _ _ inside => kept' inside) made

def hostRoute (host body : Bytes) : CompiledRoute Unit :=
  ⟨[[.host [host]]],[ErrorRuns.page 200 body],true,none,[],fun _ => none⟩

def twoHosts : List (CompiledRoute Unit) :=
  [hostRoute (ascii "b.test") (ascii "second"),hostRoute (ascii "a.test") (ascii "first")]

theorem twoHostsSwitched : ∃ after code switch,
    emitExactHostRouteSwitch some (fun _ => ascii "B.test:80") 9 0 .empty twoHosts = some (after,some code) ∧
      code after = some switch ∧ Reachable after ∧ (ascii "b.test",0) ∈ after.entries ∧
      exec (.seq switch emptyHandler) (Ctx.start ⟨(),none⟩) =
        .stop ⟨⟨(),none⟩,some (.fixed 200 (ascii "second")),[],[.handler false]⟩ := by
  refine ⟨_,_,_,rfl,rfl,?_,?_,rfl⟩
  · unfold Reachable
    decide +kernel
  · decide +kernel

theorem twoHostsRun : ∃ after code switch,
    emitExactHostRouteSwitch some (fun _ => ascii "B.test:80") 9 0 .empty twoHosts = some (after,some code) ∧
    code after = some switch ∧ exec (.seq switch emptyHandler) (Ctx.start ⟨(),none⟩) =
      .stop ⟨⟨(),none⟩,some (.fixed 200 (ascii "second")),[],[.handler false]⟩ ∧ (∀ start', ∃ after' code',
      emitRouteSequence some (fun _ => ascii "B.test:80") (fun _ text => text) 9 start' twoHosts = some (after',code') ∧
      ∀ final', after'.entries ⊆ final'.entries → final'.hosts = after.hosts → ∃ sequence, code' final' = some sequence ∧
        ∀ ctx, ctx.response = none → exec (.seq switch emptyHandler) ctx = exec sequence ctx) ∧
    zsCaddyHostTableLookup (zsCaddyHostNormalize (ascii "B.test:80")) (renderHostTable after) = after.zsHostId 0 := by
  obtain ⟨after,code,switch,switched,made,reachable,inside,ran⟩ := twoHostsSwitched
  have run := switchRunsRoutes (fun _ text => text) 9 0 switched (List.Subset.refl _) made
  exact ⟨after,code,switch,switched,made,ran,run.1,
    (run.2.2 reachable _ 0 inside (ascii "B.test:80")).mpr (by decide +kernel)⟩

variable {rest : Bytes}

theorem hostRouteId (table : HostTable) {host} (plain : caddyHostFuzzy host = false) (lowered : lower host = host)
    (new : table.entries.find? (·.1 == host) = none) (body : Bytes) :
    ∃ after, routeSingleExactHostId some table (hostRoute host body) = some (after,some table.entries.length) ∧
      after.entries = HostTable.place host table.entries.length table.entries := by
  have literal := (Bool.or_eq_false_iff.mp plain).2
  have interned : ∃ after, table.hostTableId (lower host) (exactPattern plain) = (after,table.entries.length) ∧
      after.entries = HostTable.place (lower host) table.entries.length table.entries := by
    unfold HostTable.hostTableId
    split
    · rename_i found
      rw [lowered,new] at found
      cases found
    · exact ⟨_,rfl,rfl⟩
  obtain ⟨after,same,placed⟩ := interned
  refine ⟨after,?_,lowered ▸ placed⟩
  simp only [routeSingleExactHostId,hostRoute,literal,Bool.false_eq_true,if_false,bind,Option.bind_some,plain,
    dif_pos,same]

theorem pairInterned (header : Core Unit → Bytes) (plain : caddyHostFuzzy (97::rest) = false)
    (lowered : lower (97::rest) = 97::rest) (first second : Bytes) : ∃ table code,
      emitExactHostRouteSwitch some header 9 0 .empty
        [hostRoute (97::rest) first,hostRoute [98] second] = some (table,some code) ∧
      table.entries = [(97::rest,0),([98],1)] := by
  have less : Before (97::rest) [98] := by
    rfl
  obtain ⟨one,single,placed⟩ := hostRouteId .empty plain lowered rfl first
  have entries : one.entries = [(97::rest,0)] := placed
  obtain ⟨two,other,placed⟩ := hostRouteId one (show caddyHostFuzzy [98] = false from rfl) rfl
    (by rw [entries]; rfl) second
  have both : exactHostIds some .empty [] [hostRoute (97::rest) first,hostRoute [98] second] =
      some (two,some [0,1]) := by
    have fit (host body : Bytes) : (! (hostRoute host body).terminal || (hostRoute host body).group.isSome ||
        ! (hostRoute host body).errorRoutes.isEmpty || routeMatchCanSetError (hostRoute host body)) = false := rfl
    rw [exactHostIds,fit,single]
    simp only [bind,Option.bind_some]
    rw [exactHostIds,fit,other]
    simp [exactHostIds,entries,HostTable.empty]
  refine ⟨two,fun final => hostCases header 9 final
    ([hostRoute (97::rest) first,hostRoute [98] second].zip [0,1]),?_,?_⟩
  · rw [emitExactHostRouteSwitch,both]
    rfl
  · rw [placed,entries]
    simp [HostTable.place,less]

theorem pairMisses {table} (entries : table.entries = [(97::rest,0),([98],1)])
    (wrapped : UInt32.ofNat (rest.length + 2) = 0) :
    zsCaddyHostTableLookup [98] (renderHostTable table) = -1 ∧ table.zsHostId 1 = 1 := by
  have off : (renderHostTable table).off = [0,0,2] := by
    have second : UInt32.ofNat (rest.length + 2 + 2) = 2 := by
      rw [UInt32.ofNat_add,wrapped]
      rfl
    simp only [renderHostTable,HostTable.hosts,entries,List.map_cons,offsetsFrom,List.length_cons]
    rw [show 0 + (rest.length + 1) + 1 = rest.length + 2 by omega,wrapped]
    exact congrArg (fun n => [0,0,n]) second
  have tbl : (renderHostTable table).tbl = 97::(rest ++ [0,98,0,0]) := by
    simp [renderHostTable,HostTable.hosts,entries,packed]
  have n : (renderHostTable table).n = 2 := by
    simp [renderHostTable,entries]
  have first : hostCompare [98] ((renderHostTable table).entry 0) = .gt := by
    rw [Printed.entry,off,tbl]
    rfl
  have second : hostCompare [98] ((renderHostTable table).entry 1) = .gt := by
    rw [Printed.entry,off,tbl]
    rfl
  refine ⟨?_,by rw [HostTable.zsHostId,entries]; rfl⟩
  rw [zsCaddyHostTableLookup,n]
  simp [BinarySearch.search,first,second]

theorem longNames {size} (same : size = 2 ^ 32 - 1) : ∃ table code,
    emitExactHostRouteSwitch some (fun _ => [98]) 9 0 .empty
      [hostRoute (List.replicate size 97) (ascii "first"),hostRoute [98] (ascii "second")] = some (table,some code) ∧
    ([98],1) ∈ table.entries ∧ zsCaddyHostMatch (zsCaddyHostNormalize [98]) [98] = true ∧
    zsCaddyHostTableLookup (zsCaddyHostNormalize [98]) (renderHostTable table) ≠ table.zsHostId 1 := by
  obtain ⟨n,rfl⟩ : ∃ n, size = n + 1 := ⟨size - 1,by omega⟩
  have plain : caddyHostFuzzy (97::List.replicate n 97) = false := by
    simp [caddyHostFuzzy,containsPlaceholder,openBrace,closeBrace]
  have lowered : lower (97::List.replicate n 97) = 97::List.replicate n 97 := by
    simp [lower,lowerByte]
  have normal : zsCaddyHostNormalize [98] = [98] := by decide
  obtain ⟨table,code,switched,entries⟩ := pairInterned (fun _ => [98]) plain lowered (ascii "first") (ascii "second")
  obtain ⟨missed,id⟩ := pairMisses entries (by rw [List.length_replicate,show n + 2 = 4294967296 by omega]; rfl)
  refine ⟨table,code,switched,by simp [entries],by decide,?_⟩
  rw [normal,missed,id]
  decide

theorem longTableMisses : ∃ table code, emitExactHostRouteSwitch some (fun _ => [98]) 9 0 .empty
      [hostRoute (List.replicate (2 ^ 32 - 1) 97) (ascii "first"),hostRoute [98] (ascii "second")] =
        some (table,some code) ∧ ([98],1) ∈ table.entries ∧ zsCaddyHostMatch (zsCaddyHostNormalize [98]) [98] = true ∧
    zsCaddyHostTableLookup (zsCaddyHostNormalize [98]) (renderHostTable table) ≠ table.zsHostId 1 :=
  longNames rfl

end ZeroServe.HostDispatch
