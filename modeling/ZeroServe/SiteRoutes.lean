import ZeroServe.SiteKeys

/-! Which requests the sets of a site block take, against which requests its keys ask for: `before` are the keys up to
the first one without a host, `after` those behind it. -/
namespace ZeroServe.SiteKeys
open ByteText

structure Collected (keys : List Address) (pairs : List Pair) : Prop where
  grouped : Grouped pairs
  absent : ∀ q, groupAt pairs q = none ↔ ∀ k ∈ keys, pathOf k.path ≠ q
  hosts : ∀ q H, groupAt pairs q = some H →
    ∀ h, h ∈ H ↔ ∃ k ∈ keys, pathOf k.path = q ∧ k.host = h

theorem collectedSnoc {keys k pairs} (collected : Collected keys pairs) (named : k.host ≠ []) :
    Collected (keys ++ [k]) (addKey ⟨false,pairs⟩ k).pairs ∧ (addKey ⟨false,pairs⟩ k).catchAllHosts = false := by
  have step : addKey ⟨false,pairs⟩ k = ⟨false,onChosen k.path (fun hosts =>
      if k.host ≠ [] && ! hosts.contains k.host then hosts ++ [k.host] else hosts) pairs⟩ := by
    simp [addKey,named]
  rw [step]
  refine ⟨⟨onChosenGrouped _ _ collected.grouped,fun q => ?_,fun q H found h => ?_⟩,rfl⟩
  · rw [groupAtChosen collected.grouped]
    split
    · rename_i here
      simp only [reduceCtorEq,false_iff,not_forall]
      exact ⟨k,by simp,by simp [here]⟩
    · rename_i other
      rw [collected.absent]
      constructor
      · intro none x mem
        rcases List.mem_append.mp mem with old | new
        · exact none x old
        · rw [List.mem_singleton.mp new]
          exact fun same => other same.symm
      · exact fun none x mem => none x (List.mem_append_left _ mem)
  · rw [groupAtChosen collected.grouped] at found
    have old : h ∈ (groupAt pairs q).getD [] ↔ ∃ x ∈ keys, pathOf x.path = q ∧ x.host = h := by
      cases place : groupAt pairs q with
      | none =>
        have none := (collected.absent q).mp place
        simp only [Option.getD_none,List.not_mem_nil,false_iff]
        rintro ⟨x,mem,same,_⟩
        exact none x mem same
      | some H0 => exact collected.hosts q H0 place h
    split at found
    · rename_i here
      have grown : h ∈ H ↔ h ∈ (groupAt pairs q).getD [] ∨ h = k.host := by
        rw [← Option.some.inj found]
        split
        · simp
        · rename_i known
          have inside : k.host ∈ (groupAt pairs q).getD [] := by simpa [named] using known
          constructor
          · exact .inl
          · rintro (mem | rfl)
            · exact mem
            · exact inside
      rw [grown,old]
      constructor
      · rintro (⟨x,mem,same⟩ | rfl)
        · exact ⟨x,List.mem_append_left _ mem,same⟩
        · exact ⟨k,by simp,here.symm,rfl⟩
      · rintro ⟨x,mem,same,name⟩
        rcases List.mem_append.mp mem with old | new
        · exact .inl ⟨x,old,same,name⟩
        · rw [List.mem_singleton.mp new] at name
          exact .inr name.symm
    · rename_i other
      rw [found,Option.getD_some] at old
      rw [old]
      constructor
      · rintro ⟨x,mem,same⟩
        exact ⟨x,List.mem_append_left _ mem,same⟩
      · rintro ⟨x,mem,same,name⟩
        rcases List.mem_append.mp mem with old | new
        · exact ⟨x,old,same,name⟩
        · rw [List.mem_singleton.mp new] at same
          exact absurd same.symm other

theorem collectedAll {keys} (named : ∀ k ∈ keys, k.host ≠ []) : Collected keys (keys.foldl addKey ⟨false,[]⟩).pairs ∧
      (keys.foldl addKey ⟨false,[]⟩).catchAllHosts = false := by
  induction keys using List.reverseRecOn with
  | nil =>
    exact ⟨⟨⟨by simp,by simp⟩,fun q => by simp [groupAt],fun q H found => by simp [groupAt] at found⟩,rfl⟩
  | append_singleton keys k ih =>
    obtain ⟨collected,open_⟩ := ih fun x mem => named x (List.mem_append_left _ mem)
    rw [List.foldl_append]
    generalize keys.foldl addKey ⟨false,[]⟩ = g at *
    obtain ⟨flag,pairs⟩ := g
    cases open_
    exact collectedSnoc collected (named k (by simp))

theorem caughtAll (keys : List Address) {pairs} (grouped : Grouped pairs) :
    Grouped (keys.foldl addKey ⟨true,pairs⟩).pairs ∧ ∀ q,
      groupAt (keys.foldl addKey ⟨true,pairs⟩).pairs q = match groupAt pairs q with
        | some H => some H
        | none => if ∃ k ∈ keys, pathOf k.path = q then some [] else none := by
  induction keys generalizing pairs with
  | nil =>
    refine ⟨grouped,fun q => ?_⟩
    cases place : groupAt pairs q <;> simp [place]
  | cons k rest ih =>
    have step : addKey ⟨true,pairs⟩ k = ⟨true,onChosen k.path id pairs⟩ := by simp [addKey]
    rw [List.foldl_cons,step]
    obtain ⟨after,place⟩ := ih (onChosenGrouped k.path id grouped)
    refine ⟨after,fun q => ?_⟩
    rw [place q,groupAtChosen grouped]
    by_cases here : q = pathOf k.path
    · rw [if_pos here]
      cases old : groupAt pairs q with
      | some H => simp
      | none => simp [here]
    · rw [if_neg here]
      cases old : groupAt pairs q with
      | some H => rfl
      | none =>
        have other : ¬ pathOf k.path = q := fun same => here same.symm
        simp [other]

/- The groups of keys of which `k` is the first without a host; those in `old` come from the keys before it. -/
structure Split (before : List Address) (k : Address) (after : List Address) (old pairs : List Pair) : Prop where
  collected : Collected before old
  grouped : Grouped pairs
  place : ∀ q, groupAt pairs q = if q = pathOf k.path then some [] else match groupAt old q with
    | some H => some H
    | none => if ∃ a ∈ after, pathOf a.path = q then some [] else none

theorem groupsSplit {before} (after : List Address) {k} (named : ∀ b ∈ before, b.host ≠ []) (open_ : k.host = []) :
    ∃ old, Split before k after old ((before ++ k::after).foldl addKey ⟨false,[]⟩).pairs := by
  obtain ⟨collected,flag⟩ := collectedAll named
  rw [List.foldl_append,List.foldl_cons]
  generalize before.foldl addKey ⟨false,[]⟩ = g at *
  obtain ⟨caught,pairs⟩ := g
  cases flag
  have step : addKey ⟨false,pairs⟩ k = ⟨true,onChosen k.path (fun _ => []) pairs⟩ := by
    simp [addKey,open_]
  rw [step]
  obtain ⟨grouped,place⟩ := caughtAll after
    (onChosenGrouped k.path (fun _ => []) collected.grouped)
  refine ⟨pairs,collected,grouped,fun q => ?_⟩
  rw [place q,groupAtChosen collected.grouped]
  by_cases here : q = pathOf k.path
  · rw [if_pos here,if_pos here]
  · rw [if_neg here,if_neg here]

theorem routeGroups {matchHost matchPath : Bytes → Bytes → Bool} {host path pairs} (grouped : Grouped pairs) :
    routeAccepts matchHost matchPath host path (pairs.filterMap setOf) = true ↔
      (∀ q H, groupAt pairs q = some H → H = [] ∧ q = none) ∨ ∃ q H, groupAt pairs q = some H ∧ (H ≠ [] ∨ q ≠ none) ∧
        (H = [] ∨ ∃ h ∈ H, matchHost h host = true) ∧ (∀ p, q = some p → matchPath p path = true) := by
  have member : ∀ q H, groupAt pairs q = some H ↔ (⟨H,q⟩ : Pair) ∈ pairs := by
    intro q H
    exact (groupAtMember grouped (p := ⟨H,q⟩)).symm
  have kept : ∀ p : Pair, setOf p = none ↔ p.hosts = [] ∧ p.path = none := by
    intro p
    simp [setOf]
  simp only [routeAccepts,Bool.or_eq_true,List.isEmpty_iff,List.any_eq_true,List.mem_filterMap]
  refine or_congr ?_ ?_
  · rw [List.filterMap_eq_nil_iff]
    constructor
    · intro all q H place
      exact (kept ⟨H,q⟩).mp (all _ ((member q H).mp place))
    · intro all p mem
      exact (kept p).mpr (all p.path p.hosts ((member _ _).mpr mem))
  · constructor
    · rintro ⟨s,⟨p,mem,made⟩,accepted⟩
      have some : p.hosts ≠ [] ∨ p.path ≠ none := by
        by_contra none
        have gone := (kept p).mpr (by tauto)
        rw [gone] at made
        cases made
      refine ⟨p.path,p.hosts,(member _ _).mpr mem,some,?_,?_⟩
      all_goals
        unfold setOf at made
        split at made
        · cases made
        cases made
        simp only [MatcherSet.accepts,Bool.and_eq_true] at accepted
      · by_cases none : p.hosts = []
        · exact .inl none
        · have first := accepted.1
          rw [if_neg none] at first
          exact .inr (by simpa using first)
      · intro own same
        have second := accepted.2
        rw [same] at second
        exact second
    · rintro ⟨q,H,place,some,hosts,paths⟩
      refine ⟨⟨if H = [] then none else Option.some H,q⟩,⟨⟨H,q⟩,(member q H).mp place,?_⟩,?_⟩
      · unfold setOf
        rw [if_neg]
        simp only [Bool.and_eq_true,decide_eq_true_eq,Option.isNone_iff_eq_none,not_and]
        intro empty none
        rcases some with no | no
        · exact no empty
        · exact no none
      · simp only [MatcherSet.accepts,Bool.and_eq_true]
        constructor
        · by_cases empty : H = []
          · simp [empty]
          · rw [if_neg empty]
            simpa using hosts.resolve_left empty
        · cases q with
          | none => rfl
          | some p => exact paths p rfl

theorem collectedSome {keys pairs} (collected : Collected keys pairs) {q H} (place : groupAt pairs q = some H) :
    ∃ k ∈ keys, pathOf k.path = q ∧ k.host ∈ H := by
  have present : ¬ ∀ k ∈ keys, pathOf k.path ≠ q := by
    rw [← collected.absent,place]
    simp
  push Not at present
  obtain ⟨k,mem,same⟩ := present
  exact ⟨k,mem,same,(collected.hosts q H place k.host).mpr ⟨k,mem,same,rfl⟩⟩

theorem collectedGroup {keys pairs} (collected : Collected keys pairs) {k} (mem : k ∈ keys) :
    ∃ H, groupAt pairs (pathOf k.path) = some H ∧ k.host ∈ H := by
  cases place : groupAt pairs (pathOf k.path) with
  | none => exact absurd rfl ((collected.absent _).mp place k mem)
  | some H => exact ⟨H,rfl,(collected.hosts _ H place k.host).mpr ⟨k,mem,rfl,rfl⟩⟩

theorem pathOfNone {path} : pathOf path = none ↔ path = [] := by
  unfold pathOf
  split <;> simp_all

theorem pathOfSome {path p} : pathOf path = some p ↔ path = p ∧ path ≠ [] := by
  unfold pathOf
  split <;> simp_all

section
variable {matchHost matchPath : Bytes → Bytes → Bool} {host path : Bytes}

theorem routeNamed {keys} (named : ∀ k ∈ keys, k.host ≠ []) :
    routeAccepts matchHost matchPath host path (compileEncodedMatcherSets keys) = true ↔
      keys = [] ∨ ∃ k ∈ keys, matchHost k.host host = true ∧ (k.path = [] ∨ matchPath k.path path = true) := by
  obtain ⟨collected,_⟩ := collectedAll named
  unfold compileEncodedMatcherSets
  rw [routeGroups collected.grouped]
  generalize (keys.foldl addKey ⟨false,[]⟩).pairs = pairs at *
  refine or_congr ⟨fun all => ?_,?_⟩ ⟨?_,?_⟩
  · by_contra some
    obtain ⟨k,mem⟩ := List.exists_mem_of_ne_nil keys some
    obtain ⟨H,place,inside⟩ := collectedGroup collected mem
    rw [(all _ H place).1] at inside
    cases inside
  · rintro rfl q H place
    obtain ⟨k,mem,_⟩ := collectedSome collected place
    cases mem
  · rintro ⟨q,H,place,_,hosts,paths⟩
    obtain ⟨k,mem,same,inside⟩ := collectedSome collected place
    have nonempty := List.ne_nil_of_mem inside
    obtain ⟨h,here,matched⟩ := hosts.resolve_left nonempty
    obtain ⟨x,inKeys,own,rfl⟩ := (collected.hosts q H place h).mp here
    refine ⟨x,inKeys,matched,?_⟩
    by_cases none : x.path = []
    · exact .inl none
    · exact .inr (paths x.path (by rw [← own]; exact pathOfSome.mpr ⟨rfl,none⟩))
  · rintro ⟨k,mem,matched,fits⟩
    obtain ⟨H,place,inside⟩ := collectedGroup collected mem
    refine ⟨_,H,place,.inl (List.ne_nil_of_mem inside),.inr ⟨k.host,inside,matched⟩,?_⟩
    intro p same
    obtain ⟨rfl,some⟩ := pathOfSome.mp same
    exact fits.resolve_left some

/- A block whose first key without a host is `k`: that key's path stands for any host, the
groups collected before keep their hosts, later paths have none. -/
section
variable {before after : List Address} {k : Address} {old pairs : List Pair} (split : Split before k after old pairs)
include split

theorem Split.own : groupAt pairs (pathOf k.path) = some [] := by rw [split.place,if_pos rfl]

theorem Split.kept {b} (mem : b ∈ before) (other : b.path ≠ k.path) :
    ∃ H, groupAt pairs (pathOf b.path) = some H ∧ b.host ∈ H := by
  obtain ⟨H,found,inside⟩ := collectedGroup split.collected mem
  refine ⟨H,?_,inside⟩
  rw [split.place,if_neg (fun same => other (pathOfInj same)),found]

theorem Split.fresh {a} (mem : a ∈ after) (other : a.path ≠ k.path) (new : ∀ b ∈ before, b.path ≠ a.path) :
    groupAt pairs (pathOf a.path) = some [] := by
  have absent := (split.collected.absent _).mpr fun b inside same => new b inside (pathOfInj same)
  rw [split.place,if_neg (fun same => other (pathOfInj same)),absent]
  exact if_pos ⟨a,mem,rfl⟩

/- Where a group comes from. -/
theorem Split.origin {q H} (found : groupAt pairs q = some H) : (q = pathOf k.path ∧ H = []) ∨
    q ≠ pathOf k.path ∧ (groupAt old q = some H ∨
      groupAt old q = none ∧ H = [] ∧ ∃ a ∈ after, pathOf a.path = q) := by
  rw [split.place] at found
  split at found
  · rename_i here
    exact .inl ⟨here,(Option.some.inj found).symm⟩
  · rename_i other
    refine .inr ⟨other,?_⟩
    cases former : groupAt old q with
    | some H' =>
      rw [former] at found
      exact .inl found
    | none =>
      rw [former] at found
      dsimp only at found
      split at found
      · rename_i asked
        exact .inr ⟨rfl,(Option.some.inj found).symm,asked⟩
      · cases found

theorem Split.pathless : (∀ q H, groupAt pairs q = some H → H = [] ∧ q = none) ↔
    ∀ a ∈ before ++ k::after, a.path = [] := by
  constructor
  · intro all a mem
    have first := pathOfNone.mp (all _ _ split.own).2
    by_contra asks
    have other : a.path ≠ k.path := by rw [first]; exact asks
    rcases List.mem_append.mp mem with inside | inside
    · obtain ⟨H,found,_⟩ := split.kept inside other
      exact asks (pathOfNone.mp (all _ H found).2)
    · rcases List.mem_cons.mp inside with rfl | later
      · exact asks first
      · by_cases new : ∀ b ∈ before, b.path ≠ a.path
        · exact asks (pathOfNone.mp (all _ _ (split.fresh later other new)).2)
        · push Not at new
          obtain ⟨b,inBefore,same⟩ := new
          obtain ⟨H,found,_⟩ := split.kept inBefore (by rw [same]; exact other)
          exact asks (same ▸ pathOfNone.mp (all _ H found).2)
  · intro all q H found
    have first := pathOfNone.mpr (all k (by simp))
    rcases split.origin found with ⟨rfl,rfl⟩ | ⟨other,former | ⟨-,-,a,mem,rfl⟩⟩
    · exact ⟨rfl,first⟩
    · obtain ⟨b,mem,rfl,_⟩ := collectedSome split.collected former
      exact absurd (pathOfNone.mpr (all b (by simp [mem]))) (first ▸ other)
    · exact absurd (pathOfNone.mpr (all a (by simp [mem]))) (first ▸ other)

theorem Split.served : (∃ q H, groupAt pairs q = some H ∧ (H ≠ [] ∨ q ≠ none) ∧
      (H = [] ∨ ∃ h ∈ H, matchHost h host = true) ∧ (∀ p, q = some p → matchPath p path = true)) ↔
    (k.path ≠ [] ∧ matchPath k.path path = true) ∨
    (∃ b ∈ before, b.path ≠ k.path ∧ matchHost b.host host = true ∧ (b.path = [] ∨ matchPath b.path path = true)) ∨
    ∃ a ∈ after, a.path ≠ [] ∧ a.path ≠ k.path ∧ (∀ b ∈ before, b.path ≠ a.path) ∧ matchPath a.path path = true := by
  constructor
  · rintro ⟨q,H,found,kind,hosts,paths⟩
    rcases split.origin found with ⟨rfl,rfl⟩ | ⟨other,former | ⟨former,rfl,a,mem,rfl⟩⟩
    · have asks := pathOfNone.not.mp (kind.resolve_left (fun no => no rfl))
      exact .inl ⟨asks,paths k.path (pathOfSome.mpr ⟨rfl,asks⟩)⟩
    · obtain ⟨b,mem,same,inside⟩ := collectedSome split.collected former
      obtain ⟨h,here,matched⟩ := hosts.resolve_left (List.ne_nil_of_mem inside)
      obtain ⟨x,inBefore,rfl,rfl⟩ := (split.collected.hosts q H former h).mp here
      refine .inr (.inl ⟨x,inBefore,fun same => other (by rw [same]),matched,?_⟩)
      by_cases bare : x.path = []
      · exact .inl bare
      · exact .inr (paths x.path (pathOfSome.mpr ⟨rfl,bare⟩))
    · have asks := pathOfNone.not.mp (kind.resolve_left (fun no => no rfl))
      refine .inr (.inr ⟨a,mem,asks,fun equal => other (by rw [equal]),fun b inside equal => ?_,
        paths a.path (pathOfSome.mpr ⟨rfl,asks⟩)⟩)
      exact (split.collected.absent _).mp former b inside (by rw [equal])
  · rintro (⟨asks,matched⟩ | ⟨b,mem,other,matched,fits⟩ | ⟨a,mem,asks,other,new,matched⟩)
    · refine ⟨_,[],split.own,.inr (pathOfNone.not.mpr asks),.inl rfl,?_⟩
      intro p same
      obtain ⟨rfl,_⟩ := pathOfSome.mp same
      exact matched
    · obtain ⟨H,found,inside⟩ := split.kept mem other
      refine ⟨_,H,found,.inl (List.ne_nil_of_mem inside),.inr ⟨_,inside,matched⟩,?_⟩
      intro p same
      obtain ⟨rfl,asks⟩ := pathOfSome.mp same
      exact fits.resolve_left asks
    · refine ⟨_,[],split.fresh mem other new,.inr (pathOfNone.not.mpr asks),.inl rfl,?_⟩
      intro p same
      obtain ⟨rfl,_⟩ := pathOfSome.mp same
      exact matched

end

theorem routeSplit {before after k} (named : ∀ b ∈ before, b.host ≠ []) (open_ : k.host = []) :
    routeAccepts matchHost matchPath host path (compileEncodedMatcherSets (before ++ k::after)) = true ↔
      (∀ a ∈ before ++ k::after, a.path = []) ∨ (k.path ≠ [] ∧ matchPath k.path path = true) ∨
      (∃ b ∈ before, b.path ≠ k.path ∧ matchHost b.host host = true ∧ (b.path = [] ∨ matchPath b.path path = true)) ∨
      ∃ a ∈ after, a.path ≠ [] ∧ a.path ≠ k.path ∧ (∀ b ∈ before, b.path ≠ a.path) ∧ matchPath a.path path = true := by
  obtain ⟨old,split⟩ := groupsSplit after named open_
  rw [compileEncodedMatcherSets,routeGroups split.grouped]
  exact or_congr split.pathless split.served

end

/- A key behind the first one without a host, `k`, that is still served as it asks: its path
is that of `k`, or it repeats a host already collected for its path or for every path, or its
path is new and some later key asks for that path on any host. -/
def StillServed (before : List Address) (k : Address) (after : List Address) (a : Address) : Prop :=
  a.path = k.path ∨
  ((∃ b ∈ before, b.path = a.path) ∧ ∃ b ∈ before, b.host = a.host ∧ (b.path = a.path ∨ b.path = [])) ∨
  ((∀ b ∈ before, b.path ≠ a.path) ∧ a.path ≠ [] ∧ ∃ e ∈ after, e.path = a.path ∧ e.host = [])

def KeysServed (keys : List Address) : Prop :=
  keys ≠ [] ∧ ∀ before k after, keys = before ++ k::after → (∀ b ∈ before, b.host ≠ []) →
    k.host = [] → (∀ a ∈ keys, a.path = []) ∨
      (k.path ≠ [] ∧ ∀ a ∈ after, StillServed before k after a)

theorem firstOpen (keys : List Address) : (∀ k ∈ keys, k.host ≠ []) ∨ ∃ before k after, keys = before ++ k::after ∧
      (∀ b ∈ before, b.host ≠ []) ∧ k.host = [] := by
  cases found : keys.find? (·.host == []) with
  | none => exact .inl (by simpa using List.find?_eq_none.mp found)
  | some k =>
    obtain ⟨open_,before,after,rfl,named⟩ := List.find?_eq_some_iff_append.mp found
    exact .inr ⟨before,k,after,rfl,by simpa using named,by simpa using open_⟩

theorem keyAccepts {matchHost matchPath : Bytes → Bytes → Bool} {host path : Bytes} {a : Address} :
    a.accepts matchHost matchPath host path = true ↔ (a.host = [] ∨ matchHost a.host host = true) ∧
        (a.path = [] ∨ matchPath a.path path = true) := by
  simp [Address.accepts]

def RouteExact (keys : List Address) : Prop :=
  ∀ (matchHost matchPath : Bytes → Bytes → Bool) (host path : Bytes),
    routeAccepts matchHost matchPath host path (compileEncodedMatcherSets keys) = true ↔
      ∃ key ∈ keys, key.accepts matchHost matchPath host path = true

theorem servedExact {keys : List Address} (served : KeysServed keys) : RouteExact keys := by
  intro matchHost matchPath host path
  obtain ⟨some,served⟩ := served
  rcases firstOpen keys with named | ⟨before,k,after,rfl,named,open_⟩
  · rw [routeNamed named,or_iff_right some]
    refine exists_congr fun k => and_congr_right fun mem => ?_
    rw [keyAccepts,or_iff_right (named k mem)]
  rw [routeSplit named open_]
  rcases served before k after rfl named open_ with all | ⟨own,later⟩
  · exact ⟨fun _ => ⟨k,by simp,keyAccepts.mpr ⟨.inl open_,.inl (all k (by simp))⟩⟩,fun _ => .inl all⟩
  constructor
  · rintro (all | ⟨_,matched⟩ | ⟨b,mem,_,matched,fits⟩ | ⟨a,mem,nonempty,other,fresh,matched⟩)
    · exact absurd (all k (by simp)) own
    · exact ⟨k,by simp,keyAccepts.mpr ⟨.inl open_,.inr matched⟩⟩
    · exact ⟨b,by simp [mem],keyAccepts.mpr ⟨.inr matched,fits⟩⟩
    · rcases later a mem with same | ⟨⟨b,inside,same⟩,_⟩ | ⟨_,_,e,inside,same,any⟩
      · exact absurd same other
      · exact absurd same (fresh b inside)
      · exact ⟨e,by simp [inside],keyAccepts.mpr ⟨.inl any,.inr (by rw [same]; exact matched)⟩⟩
  · rintro ⟨x,mem,accepted⟩
    obtain ⟨hosted,fits⟩ := keyAccepts.mp accepted
    -- a key with the path of `k` is served by the group of `k`
    have sameGroup : x.path = k.path → k.path ≠ [] ∧ matchPath k.path path = true := by
      intro same
      rw [same] at fits
      exact ⟨own,fits.resolve_left own⟩
    by_cases same : x.path = k.path
    · exact .inr (.inl (sameGroup same))
    rcases List.mem_append.mp mem with inside | inside
    · exact .inr (.inr (.inl ⟨x,inside,same,hosted.resolve_left (named x inside),fits⟩))
    rcases List.mem_cons.mp inside with rfl | behind
    · exact absurd rfl same
    rcases later x behind with equal | ⟨_,b,inBefore,equal,wide⟩ | ⟨fresh,nonempty,_⟩
    · exact absurd equal same
    · have matched : matchHost b.host host = true := by
        rw [equal]
        exact hosted.resolve_left (equal ▸ named b inBefore)
      refine .inr (.inr (.inl ⟨b,inBefore,?_,matched,?_⟩))
      · rcases wide with path' | none
        · rw [path']; exact same
        · rw [none]; exact own.symm
      · rcases wide with path' | none
        · rw [path']; exact fits
        · exact .inl none
    · exact .inr (.inr (.inr ⟨x,behind,nonempty,same,fresh,fits.resolve_left nonempty⟩))

def never : Bytes → Bytes → Bool := fun _ _ => false
def only (text : Bytes) : Bytes → Bytes → Bool := fun pattern _ => pattern == text

theorem exactServed {keys : List Address} (precise : RouteExact keys) : KeysServed keys := by
  refine ⟨?_,?_⟩
  · rintro rfl
    obtain ⟨_,mem,_⟩ := (precise never never [] []).mp (by decide)
    cases mem
  rintro before k after rfl named open_
  refine or_iff_not_imp_left.mpr fun some => ?_
  have lands := fun matchHost matchPath => precise matchHost matchPath [] []
  simp only [routeSplit named open_,or_iff_right some] at lands
  -- no key may ask for every request
  have narrow : ∀ x ∈ before ++ k::after, ¬ (x.host = [] ∧ x.path = []) := by
    rintro x mem ⟨anyHost,anyPath⟩
    have reached := (lands never never).mpr ⟨x,mem,keyAccepts.mpr ⟨.inl anyHost,.inl anyPath⟩⟩
    simp [never] at reached
  have own : k.path ≠ [] := fun none => narrow k (by simp) ⟨open_,none⟩
  refine ⟨own,fun a mem => ?_⟩
  by_contra lost
  have other : a.path ≠ k.path := fun same => lost (.inl same)
  by_cases fresh : ∀ b ∈ before, b.path ≠ a.path
  · by_cases none : a.path = []
    · -- the group of `a` is dropped, and its host with it
      have reached := (lands (only a.host) never).mpr
        ⟨a,by simp [mem],keyAccepts.mpr ⟨.inr (by simp [only]),.inl none⟩⟩
      simp only [never,Bool.false_eq_true,and_false,or_false,false_or,exists_false] at reached
      obtain ⟨b,inside,_,_,noPath⟩ := reached
      exact fresh b inside (by rw [noPath,none])
    · -- the group of `a` takes any host
      obtain ⟨x,inside,accepted⟩ := (lands never (only a.path)).mp
        (.inr (.inr ⟨a,mem,none,other,fresh,by simp [only]⟩))
      obtain ⟨anyHost,fits⟩ := keyAccepts.mp accepted
      have anyHost : x.host = [] := by simpa [never] using anyHost
      have same : x.path = a.path := by
        rcases fits with noPath | matched
        · exact absurd ⟨anyHost,noPath⟩ (narrow x inside)
        · simpa [only] using matched
      rcases List.mem_append.mp inside with early | rest
      · exact named x early anyHost
      rcases List.mem_cons.mp rest with rfl | late
      · exact other same.symm
      · exact lost (.inr (.inr ⟨fresh,none,x,late,same,anyHost⟩))
  · -- the group of `a` was collected before `k`, without the host of `a`
    have reached := (lands (only a.host) (only a.path)).mpr
      ⟨a,by simp [mem],keyAccepts.mpr ⟨.inr (by simp [only]),.inr (by simp [only])⟩⟩
    simp only [only,beq_iff_eq] at reached
    rcases reached with ⟨_,same⟩ | ⟨b,inside,_,same,wide⟩ | ⟨c,_,_,_,new,same⟩
    · exact other same.symm
    · push Not at fresh
      exact lost (.inr (.inl ⟨fresh,b,inside,same,wide.symm⟩))
    · exact fresh (same ▸ new)

theorem siteKeysExact (keys : List Address) : RouteExact keys ↔ KeysServed keys :=
  ⟨exactServed,servedExact⟩

theorem openKeyLost : (∃ key ∈ [⟨ascii "h",ascii "/x"⟩,⟨[],[]⟩],
      Address.accepts never never (ascii "other") (ascii "/") key = true) ∧
    routeAccepts never never (ascii "other") (ascii "/")
      (compileEncodedMatcherSets [⟨ascii "h",ascii "/x"⟩,⟨[],[]⟩]) = false := by
  refine ⟨⟨⟨[],[]⟩,by simp,rfl⟩,by decide +kernel⟩

end ZeroServe.SiteKeys
