import ZeroServe.ByteText

/-! The keys of a Caddyfile site block as matcher sets. Keys are grouped by path, hosts are collected per group, and
the first key without a host ends the collecting for all groups at once. -/
namespace ZeroServe.SiteKeys
open ByteText

structure Address where
  host : Bytes
  path : Bytes
  deriving DecidableEq

structure Pair where
  hosts : List Bytes
  path : Option Bytes
  deriving DecidableEq

def pathOf (path : Bytes) : Option Bytes := if path = [] then none else some path

def samePath : Option Bytes → Bytes → Bool
  | none, [] => true
  | some p, path => p == path
  | none, _::_ => false

def onChosen (path : Bytes) (change : List Bytes → List Bytes) : List Pair → List Pair
  | [] => [⟨change [],pathOf path⟩]
  | p::rest =>
    if samePath p.path path then {p with hosts := change p.hosts}::rest
    else p::onChosen path change rest

structure Grouping where
  catchAllHosts : Bool
  pairs : List Pair
  deriving DecidableEq

def addKey (g : Grouping) (addr : Address) : Grouping :=
  if addr.host = [] && ! g.catchAllHosts then ⟨true,onChosen addr.path (fun _ => []) g.pairs⟩
  else if g.catchAllHosts then ⟨true,onChosen addr.path id g.pairs⟩
  else ⟨false,onChosen addr.path (fun hosts =>
    if addr.host ≠ [] && ! hosts.contains addr.host then hosts ++ [addr.host] else hosts) g.pairs⟩

/- The object of a set: a key is absent, or holds what is to be matched. -/
structure MatcherSet where
  host : Option (List Bytes)
  path : Option Bytes
  deriving DecidableEq

def setOf (p : Pair) : Option MatcherSet :=
  if p.hosts = [] && p.path.isNone then none
  else some ⟨if p.hosts = [] then none else some p.hosts,p.path⟩

def compileEncodedMatcherSets (keys : List Address) : List MatcherSet :=
  (keys.foldl addKey ⟨false,[]⟩).pairs.filterMap setOf

section
variable (matchHost matchPath : Bytes → Bytes → Bool) (host path : Bytes)

def MatcherSet.accepts (s : MatcherSet) : Bool :=
  (match s.host with | none => true | some hosts => hosts.any (matchHost · host)) &&
  (match s.path with | none => true | some p => matchPath p path)

def routeAccepts (sets : List MatcherSet) : Bool :=
  sets.isEmpty || sets.any (·.accepts matchHost matchPath host path)

def Address.accepts (a : Address) : Bool :=
  (a.host == [] || matchHost a.host host) && (a.path == [] || matchPath a.path path)

end

def groupAt (pairs : List Pair) (q : Option Bytes) : Option (List Bytes) :=
  (pairs.find? (fun p => p.path == q)).map Pair.hosts

structure Grouped (pairs : List Pair) : Prop where
  distinct : (pairs.map Pair.path).Nodup
  plain : ∀ p ∈ pairs, p.path ≠ some []

theorem pathOfPlain (path : Bytes) : pathOf path ≠ some [] := by
  unfold pathOf
  split <;> simp_all

theorem pathOfInj {p q} (same : pathOf p = pathOf q) : p = q := by
  unfold pathOf at same
  split at same <;> split at same <;> simp_all

theorem samePathEq {p} (plain : p ≠ some []) (path : Bytes) : samePath p path = (p == pathOf path) := by
  cases p with
  | none => cases path <;> simp [samePath,pathOf]
  | some p =>
    cases path with
    | nil => simpa [samePath,pathOf] using plain
    | cons b rest => simp [samePath,pathOf]

theorem onChosenPaths {path} {change : List Bytes → List Bytes} {pairs p} (mem : p ∈ onChosen path change pairs) :
    p.path = pathOf path ∨ p.path ∈ pairs.map Pair.path := by
  induction pairs with
  | nil =>
    rw [onChosen,List.mem_singleton] at mem
    exact .inl (by rw [mem])
  | cons first rest ih =>
    unfold onChosen at mem
    split at mem
    · rcases List.mem_cons.mp mem with rfl | later
      · exact .inr (by simp)
      · exact .inr (by simp only [List.map_cons,List.mem_cons]; exact .inr (List.mem_map_of_mem later))
    · rcases List.mem_cons.mp mem with rfl | later
      · exact .inr (by simp)
      · rcases ih later with same | inside
        · exact .inl same
        · exact .inr (List.mem_cons_of_mem _ inside)

theorem onChosenGrouped (path : Bytes) (change : List Bytes → List Bytes) {pairs} (grouped : Grouped pairs) :
    Grouped (onChosen path change pairs) := by
  induction pairs with
  | nil => exact ⟨by simp [onChosen],by simpa [onChosen] using pathOfPlain path⟩
  | cons first rest ih =>
    obtain ⟨distinct,plain⟩ := grouped
    rw [List.map_cons,List.nodup_cons] at distinct
    unfold onChosen
    split
    · refine ⟨by simpa using distinct,fun p mem => ?_⟩
      rcases List.mem_cons.mp mem with rfl | later
      · exact plain first List.mem_cons_self
      · exact plain p (List.mem_cons_of_mem _ later)
    · rename_i other
      have inner := ih ⟨distinct.2,fun p mem => plain p (List.mem_cons_of_mem _ mem)⟩
      have apart : first.path ≠ pathOf path := by
        rw [samePathEq (plain first List.mem_cons_self)] at other
        simpa using other
      refine ⟨?_,fun p mem => ?_⟩
      · rw [List.map_cons,List.nodup_cons]
        refine ⟨fun inside => ?_,inner.distinct⟩
        obtain ⟨p,mem,same⟩ := List.mem_map.mp inside
        rcases onChosenPaths mem with new | old
        · exact apart (same.symm.trans new)
        · exact distinct.1 (same ▸ old)
      · rcases List.mem_cons.mp mem with rfl | later
        · exact plain p List.mem_cons_self
        · exact inner.plain p later

theorem groupAtChosen {path} {change : List Bytes → List Bytes} {pairs} (grouped : Grouped pairs) (q : Option Bytes) :
    groupAt (onChosen path change pairs) q =
      if q = pathOf path then some (change ((groupAt pairs q).getD [])) else groupAt pairs q := by
  induction pairs with
  | nil =>
    simp only [onChosen,groupAt,List.find?_cons]
    split
    · rename_i here
      rw [if_pos (by simpa using (beq_iff_eq.mp here).symm)]
      rfl
    · rename_i other
      rw [if_neg (fun same => by rw [same,beq_self_eq_true] at other; cases other)]
  | cons first rest ih =>
    have plain := grouped.plain first List.mem_cons_self
    have inner := ih ⟨(List.nodup_cons.mp (by simpa using grouped.distinct)).2,
      fun p mem => grouped.plain p (List.mem_cons_of_mem _ mem)⟩
    unfold onChosen
    rw [samePathEq plain]
    by_cases chosen : first.path = pathOf path
    · rw [if_pos (by simpa using chosen)]
      simp only [groupAt]
      by_cases wanted : q = pathOf path
      · simp [wanted,chosen]
      · have other : (first.path == q) = false := by
          simpa [chosen] using fun same => wanted same.symm
        simp [other,wanted]
    · rw [if_neg (by simpa using chosen)]
      simp only [groupAt,List.find?_cons] at inner ⊢
      by_cases here : first.path = q
      · have other : q ≠ pathOf path := fun same => chosen (here.trans same)
        simp [here,other]
      · have other : (first.path == q) = false := by simpa using here
        simp only [other]
        exact inner

theorem groupAtMember {pairs} (grouped : Grouped pairs) {p} : p ∈ pairs ↔ groupAt pairs p.path = some p.hosts := by
  constructor
  · intro mem
    obtain ⟨before,after,rfl⟩ := List.append_of_mem mem
    have distinct := grouped.distinct
    have absent : ∀ x ∈ before, ¬ (x.path == p.path) = true := by
      intro x inside same
      rw [List.map_append,List.nodup_append] at distinct
      exact distinct.2.2 x.path (List.mem_map_of_mem inside) p.path (by simp) (beq_iff_eq.mp same)
    rw [groupAt,List.find?_append,List.find?_eq_none.mpr absent]
    simp
  · intro found
    obtain ⟨x,place,same⟩ := Option.map_eq_some_iff.mp found
    have path : x.path = p.path := by simpa using List.find?_some place
    have mem := List.mem_of_find?_eq_some place
    rcases x with ⟨hosts,own⟩
    subst same path
    exact mem

end ZeroServe.SiteKeys
