import ZeroServe.JsonTree
import ZeroServe.StableSort

/-! The order of a block's routes: by directive, and within a directive by path. Two routes with a single path are
compared by it, all others by their positions in the file, so the two can go round in a circle. -/
namespace ZeroServe.RouteOrder
open ByteText
open JsonTree (Json Step child)
open StableSort

structure Route (M H : Type) where
  matcherSets : List M
  handlers : List H
  group : Bytes
  terminal : Bool

inductive RouteOrSub (H : Type) where
  | route (r : Route Json H)
  | sub (routes errors : List (Route Json H))
  | json (value : Json)

structure ConfigValue (H : Type) where
  directive : Bytes
  value : RouteOrSub H

variable {H : Type}

def directivePosition (dir : Bytes) (order : List Bytes) : Nat := (order.findIdx? (· == dir)).getD (2 ^ 64 - 1)

def singlePath (route : Route Json H) : Option Bytes :=
  match route.matcherSets with
  | [set] => match child set (.key (ascii "path")) with
    | some (.array [.string p]) => some p
    | _ => none
  | _ => none

def trimmed (path : Bytes) : Bytes := if path.getLast? = some 42 then path.dropLast else path

def comparePaths (ap bp : Bytes) : Ordering :=
  if trimmed ap = trimmed bp then compare ap.length bp.length
  else if (trimmed ap).length = (trimmed bp).length then compare (trimmed ap) (trimmed bp)
  else compare (trimmed bp).length (trimmed ap).length

def sortByPath (a b : Route Json H) : Ordering :=
  match singlePath a,singlePath b with
  | some ap,some bp => comparePaths ap bp
  | _,_ =>
    if ! a.matcherSets.isEmpty && b.matcherSets.isEmpty then .lt
    else if a.matcherSets.isEmpty && ! b.matcherSets.isEmpty then .gt
    else .eq

/- The entries carry their positions in the file. -/
def compareValues (order : List Bytes) (a b : ConfigValue H × Nat) : Ordering :=
  if a.1.directive ≠ b.1.directive then
    compare (directivePosition a.1.directive order) (directivePosition b.1.directive order)
  else match a.1.value,b.1.value with
    | .route ar,.route br =>
      if a.1.directive = ascii "vars" then (sortByPath ar br).swap.then (compare b.2 a.2)
      else (sortByPath ar br).then (compare a.2 b.2)
    | _,_ => .eq

def sortRoutes (sort : (ConfigValue H × Nat → ConfigValue H × Nat → Ordering) → List (ConfigValue H × Nat) →
    List (ConfigValue H × Nat)) (routes : List (ConfigValue H)) (order : List Bytes) : List (ConfigValue H) :=
  (sort (compareValues order) routes.zipIdx).map Prod.fst

theorem comparePathsLex (p q : Bytes) : comparePaths p q = (compare (trimmed q).length (trimmed p).length).then
    ((compare (trimmed p) (trimmed q)).then (compare p.length q.length)) := by
  unfold comparePaths
  split
  · rename_i same
    rw [same,Std.ReflOrd.compare_self,Std.ReflOrd.compare_self]
    rfl
  · rename_i apart
    split
    · rename_i level
      rw [level,Std.ReflOrd.compare_self]
      cases ordered : compare (trimmed p) (trimmed q) with
      | eq => exact absurd (Std.LawfulEqOrd.eq_of_compare ordered) apart
      | lt => rfl
      | gt => rfl
    · rename_i uneven
      cases ordered : compare (trimmed q).length (trimmed p).length with
      | eq => exact absurd (Std.LawfulEqOrd.eq_of_compare ordered).symm uneven
      | lt => rfl
      | gt => rfl

instance : Std.TransCmp comparePaths := by
  have same : comparePaths = compareLex (fun p q => compare (trimmed q).length (trimmed p).length)
      (compareLex (compareOn trimmed) (compareOn List.length)) := by
    funext p q
    exact comparePathsLex p q
  have lengths : Std.TransCmp (compareOn fun p : Bytes => (trimmed p).length) := inferInstance
  have reversed : Std.TransCmp fun p q : Bytes => compare (trimmed q).length (trimmed p).length := lengths.opposite
  rw [same]
  infer_instance

theorem pathsSwap (p q : Bytes) : comparePaths p q = (comparePaths q p).swap := Std.OrientedCmp.eq_swap

theorem pathsLevel {p q} (first : ¬ comparePaths p q = .gt) (second : ¬ comparePaths q p = .gt) :
    comparePaths p q = .eq := by
  rw [pathsSwap] at second
  cases ordered : comparePaths p q with
  | eq => rfl
  | lt => exact absurd (by rw [ordered]; rfl) second
  | gt => exact absurd ordered first

theorem pathsLe {p q r} (first : ¬ comparePaths p q = .gt) (second : ¬ comparePaths q r = .gt) :
    ¬ comparePaths p r = .gt :=
  Ordering.isLE_iff_ne_gt.mp
    (Std.TransCmp.isLE_trans (Ordering.isLE_iff_ne_gt.mpr first) (Ordering.isLE_iff_ne_gt.mpr second))

theorem pathsTrans {p q r} {i j n : Nat} (first : ¬ comparePaths p q = .gt ∧ (comparePaths p q = .eq → i ≤ j))
    (second : ¬ comparePaths q r = .gt ∧ (comparePaths q r = .eq → j ≤ n)) :
    ¬ comparePaths p r = .gt ∧ (comparePaths p r = .eq → i ≤ n) := by
  refine ⟨pathsLe first.1 second.1,fun equal => ?_⟩
  have back : ¬ comparePaths r p = .gt := by
    rw [pathsSwap,equal]
    decide
  exact (first.2 (pathsLevel first.1 (pathsLe second.1 back))).trans (second.2 (pathsLevel second.1 (pathsLe back first.1)))

theorem longerBefore {p q} (before : comparePaths p q ≠ .gt) : (trimmed q).length ≤ (trimmed p).length := by
  by_contra longer
  rw [comparePathsLex,Nat.compare_eq_gt.mpr (by omega)] at before
  exact before rfl

inductive Kind where
  | path (p : Bytes)
  | matched
  | bare
  deriving DecidableEq

def kind (r : Route Json H) : Kind :=
  match singlePath r with
  | some p => .path p
  | none => if r.matcherSets.isEmpty then .bare else .matched

def compareKinds : Kind → Kind → Ordering
  | .path p,.path q => comparePaths p q
  | .bare,.bare => .eq
  | .bare,_ => .gt
  | _,.bare => .lt
  | _,_ => .eq

def placed (a b : Kind × Nat) : Ordering := (compareKinds a.1 b.1).then (compare a.2 b.2)

theorem sortByPathKind (a b : Route Json H) : sortByPath a b = compareKinds (kind a) (kind b) := by
  have given (r : Route Json H) {p} (single : singlePath r = some p) : r.matcherSets.isEmpty = false := by
    unfold singlePath at single
    split at single
    · rename_i one
      rw [one]
      rfl
    · cases single
  unfold sortByPath kind
  cases left : singlePath a with
  | none =>
    cases right : singlePath b with
    | none => cases a.matcherSets.isEmpty <;> cases b.matcherSets.isEmpty <;> rfl
    | some q =>
      rw [given b right]
      cases a.matcherSets.isEmpty <;> rfl
  | some p =>
    cases right : singlePath b with
    | none =>
      rw [given a left]
      cases b.matcherSets.isEmpty <;> rfl
    | some q => rfl

theorem compareKindsSwap (k l : Kind) : compareKinds k l = (compareKinds l k).swap := by
  cases k <;> cases l <;> try rfl
  exact pathsSwap _ _

theorem placedSwap (a b : Kind × Nat) : placed a b = (placed b a).swap := by
  rw [placed,placed,Ordering.swap_then,← compareKindsSwap,Nat.compare_swap]

def Passes (a m b : Kind × Nat) : Prop :=
  ∀ p q, a.1 = .path p → m.1 = .matched → b.1 = .path q → a.2 ≤ m.2 → m.2 ≤ b.2 → comparePaths p q ≠ .gt

theorem placedTrans {a b c} (abc : Passes a b c) (bca : Passes b c a) (cab : Passes c a b) (first : placed a b ≠ .gt)
    (second : placed b c ≠ .gt) : placed a c ≠ .gt := by
  obtain ⟨k,i⟩ := a
  obtain ⟨l,j⟩ := b
  obtain ⟨m,n⟩ := c
  -- Only the cases with two paths are not settled by the positions alone.
  cases k <;> cases l <;> cases m <;>
    simp [placed,compareKinds,Passes,Ordering.then_eq_gt,Nat.compare_eq_gt] at first second abc bca cab ⊢ <;> try omega
  case path.path.path => exact pathsTrans first second
  case path.matched.path => exact ⟨abc first second,fun _ => first.trans second⟩
  case path.path.matched =>
    by_contra behind
    have level := first.2 (pathsLevel first.1 (bca second (by omega)))
    omega
  case matched.path.path =>
    by_contra behind
    have level := second.2 (pathsLevel second.1 (cab (by omega) first))
    omega

section
variable (order : List Bytes)

def kindOf (dir : Bytes) (v : ConfigValue H) : Option Kind :=
  if v.directive = dir then match v.value with
    | .route r => some (kind r)
    | _ => none
  else none

def position (v : ConfigValue H) : Nat := directivePosition v.directive order

theorem kindDirective {dir : Bytes} {v : ConfigValue H} {k} (found : kindOf dir v = some k) : v.directive = dir := by
  unfold kindOf at found
  split at found
  · assumption
  · cases found

theorem compareRoutes {dir : Bytes} {a b : ConfigValue H × Nat} {k l} (left : kindOf dir a.1 = some k)
    (right : kindOf dir b.1 = some l) : compareValues order a b =
      if dir = ascii "vars" then placed (l,b.2) (k,a.2) else placed (k,a.2) (l,b.2) := by
  have sameA := kindDirective left
  have sameB := kindDirective right
  rw [kindOf,if_pos sameA] at left
  rw [kindOf,if_pos sameB] at right
  rw [compareValues,if_neg (not_not.mpr (sameA.trans sameB.symm)),sameA]
  cases va : a.1.value <;> rw [va] at left <;> cases left
  cases vb : b.1.value <;> rw [vb] at right <;> cases right
  simp only [sortByPathKind,placed]
  rw [← compareKindsSwap]

def Alike (a b : ConfigValue H) (dir : Bytes) (k l : Kind) : Prop := kindOf dir a = some k ∧ kindOf dir b = some l

theorem compareOthers {a b : ConfigValue H × Nat} (other : ¬ ∃ dir k l, Alike a.1 b.1 dir k l) :
    compareValues order a b = compare (position order a.1) (position order b.1) := by
  unfold compareValues
  split
  · rfl
  · rename_i same
    rw [position,position,← not_not.mp same,Std.ReflOrd.compare_self]
    split
    · rename_i ar br va vb
      refine absurd ⟨a.1.directive,kind ar,kind br,?_,?_⟩ other
      · simp [kindOf,va]
      · simp [kindOf,vb,not_not.mp same]
    · rfl

theorem positionLe {a b : ConfigValue H × Nat} (before : compareValues order a b ≠ .gt) :
    position order a.1 ≤ position order b.1 := by
  by_cases alike : ∃ dir k l, Alike a.1 b.1 dir k l
  · obtain ⟨dir,k,l,left,right⟩ := alike
    rw [position,position,kindDirective left,kindDirective right]
  · rw [compareOthers order alike,ne_eq,Nat.compare_eq_gt] at before
    omega

theorem compareValuesSwap (a b : ConfigValue H × Nat) : compareValues order a b = (compareValues order b a).swap := by
  by_cases alike : ∃ dir k l, Alike a.1 b.1 dir k l
  · obtain ⟨dir,k,l,left,right⟩ := alike
    rw [compareRoutes order left right,compareRoutes order right left]
    split <;> exact placedSwap _ _
  · have back : ¬ ∃ dir k l, Alike b.1 a.1 dir k l := fun found => by
      obtain ⟨dir,k,l,both⟩ := found
      exact alike ⟨dir,l,k,both.2,both.1⟩
    rw [compareOthers order alike,compareOthers order back,Nat.compare_swap]

end

section
variable {order : List Bytes} {l : List (ConfigValue H × Nat)}

/- `aside`: what compares equal to every route of a directive stands beside at most one of them. `between`: no route
with other matchers stands between two paths in the wrong order. `vars` has the shorter paths first. -/
structure Orderable (order : List Bytes) (l : List (ConfigValue H × Nat)) : Prop where
  aside : ∀ a ∈ l, ∀ b ∈ l, ∀ v ∈ l, ∀ dir k m, Alike a.1 b.1 dir k m → a.2 ≠ b.2 → kindOf dir v.1 = none →
    position order v.1 ≠ directivePosition dir order
  between : ∀ a ∈ l, ∀ m ∈ l, ∀ b ∈ l, ∀ dir p q, Alike a.1 b.1 dir (.path p) (.path q) →
    kindOf dir m.1 = some .matched → a.2 < m.2 → m.2 < b.2 → comparePaths p q ≠ .gt
  vars : ∀ a ∈ l, ∀ b ∈ l, ∀ p q, Alike a.1 b.1 (ascii "vars") (.path p) (.path q) →
    (trimmed p).length = (trimmed q).length

def LongerFirst (a b : ConfigValue H) : Prop :=
  ∀ dir p q, Alike a b dir (.path p) (.path q) → (trimmed q).length ≤ (trimmed p).length

theorem orderablePasses (unique : ∀ a ∈ l, ∀ b ∈ l, a.2 = b.2 → a = b) (orderable : Orderable order l) {a m b}
    (ma : a ∈ l) (mm : m ∈ l) (mb : b ∈ l) {dir} {x y z} (ka : kindOf dir a.1 = some x) (km : kindOf dir m.1 = some y)
    (kb : kindOf dir b.1 = some z) : Passes (x,a.2) (y,m.2) (z,b.2) := by
  rintro p q rfl rfl rfl first second
  refine orderable.between a ma m mm b mb dir p q ⟨ka,kb⟩ km (first.lt_of_ne ?_) (second.lt_of_ne ?_)
  · intro same
    rw [unique a ma m mm same,km] at ka
    cases ka
  · intro same
    rw [← unique m mm b mb same,km] at kb
    cases kb

theorem orderablePreorder (unique : ∀ a ∈ l, ∀ b ∈ l, a.2 = b.2 → a = b) (orderable : Orderable order l) :
    PreorderOn (compareValues order) l := by
  refine ⟨fun a _ b _ => compareValuesSwap order a b,?_⟩
  intro a ma b mb c mc first second
  have ab := positionLe order first
  have bc := positionLe order second
  by_cases alike : ∃ dir x z, Alike a.1 c.1 dir x z
  · obtain ⟨dir,x,z,ka,kc⟩ := alike
    by_cases same : a.2 = c.2
    · rw [unique a ma c mc same]
      intro after
      have swap := compareValuesSwap order c c
      rw [after] at swap
      cases swap
    cases kb : kindOf dir b.1 with
    | none =>
      refine absurd ?_ (orderable.aside a ma c mc b mb dir x z ⟨ka,kc⟩ same kb)
      rw [position,kindDirective ka] at ab
      rw [position.eq_def order c.1,kindDirective kc] at bc
      omega
    | some y =>
      have passes {e f g : ConfigValue H × Nat} (me : e ∈ l) (mf : f ∈ l) (mg : g ∈ l) {k m n}
          (ke : kindOf dir e.1 = some k) (kf : kindOf dir f.1 = some m) (kg : kindOf dir g.1 = some n) :=
        orderablePasses unique orderable me mf mg ke kf kg
      rw [compareRoutes order ka kb] at first
      rw [compareRoutes order kb kc] at second
      rw [compareRoutes order ka kc]
      by_cases vars : dir = ascii "vars"
      · rw [if_pos vars] at first second ⊢
        exact placedTrans (passes mc mb ma kc kb ka) (passes mb ma mc kb ka kc) (passes ma mc mb ka kc kb) second first
      · rw [if_neg vars] at first second ⊢
        exact placedTrans (passes ma mb mc ka kb kc) (passes mb mc ma kb kc ka) (passes mc ma mb kc ka kb) first second
  · rw [compareOthers order alike,ne_eq,Nat.compare_eq_gt]
    omega

theorem longerAlike {a b : ConfigValue H × Nat} {dir : Bytes} {p q} (alike : Alike a.1 b.1 dir (.path p) (.path q))
    (before : compareValues order a b ≠ .gt) :
    if dir = ascii "vars" then (trimmed p).length ≤ (trimmed q).length else (trimmed q).length ≤ (trimmed p).length := by
  rw [compareRoutes order alike.1 alike.2] at before
  have paths {p q : Bytes} {i j : Nat} (first : placed (.path p,i) (.path q,j) ≠ .gt) :
      (trimmed q).length ≤ (trimmed p).length :=
    longerBefore fun after => first (Ordering.then_eq_gt.mpr (.inl after))
  split at before <;> rename_i vars
  · rw [if_pos vars]
    exact paths before
  · rw [if_neg vars]
    exact paths before

theorem orderableLonger (orderable : Orderable order l) {out} (done : StablySorted (compareValues order) l out) :
    (out.map Prod.fst).Pairwise LongerFirst := by
  refine List.pairwise_map.mpr (List.Pairwise.imp_of_mem ?_ done.sorted)
  intro a b ma mb before dir p q alike
  have longer := longerAlike alike before
  split at longer
  · rename_i vars
    subst vars
    exact (orderable.vars a (done.perm.subset ma) b (done.perm.subset mb) p q alike).symm.le
  · exact longer

theorem preorderOrderable (preorder : PreorderOn (compareValues order) l)
    (longer : ((l.mergeSort (notAfter (compareValues order))).map Prod.fst).Pairwise LongerFirst) : Orderable order l := by
  refine ⟨?_,?_,?_⟩
  · intro a ma b mb v mv dir k m alike apart empty same
    have others {e : ConfigValue H × Nat} {x} (ke : kindOf dir e.1 = some x) :
        compareValues order e v = .eq ∧ compareValues order v e = .eq := by
      have left : compareValues order e v = .eq := by
        rw [compareOthers order,same,position,kindDirective ke,Std.ReflOrd.compare_self]
        rintro ⟨dir',x',y,ke',kv⟩
        rw [← kindDirective ke',kindDirective ke,empty] at kv
        cases kv
      exact ⟨left,by rw [compareValuesSwap,left]; rfl⟩
    have ab := preorder.trans a ma v mv b mb (by simp [others alike.1]) (by simp [others alike.2])
    have ba := preorder.trans b mb v mv a ma (by simp [others alike.2]) (by simp [others alike.1])
    rw [compareValuesSwap] at ba
    have level : compareValues order a b = .eq := by
      cases h : compareValues order a b <;> simp_all
    rw [compareRoutes order alike.1 alike.2] at level
    split at level
    · exact apart (Nat.compare_eq_eq.mp (Ordering.then_eq_eq.mp level).2).symm
    · exact apart (Nat.compare_eq_eq.mp (Ordering.then_eq_eq.mp level).2)
  · intro a ma m mm b mb dir p q alike km am mb' after
    have left : placed (.path p,a.2) (.matched,m.2) ≠ .gt := by
      simp [placed,compareKinds,Nat.compare_eq_gt]
      omega
    have right : placed (.matched,m.2) (.path q,b.2) ≠ .gt := by
      simp [placed,compareKinds,Nat.compare_eq_gt]
      omega
    have wrong : placed (.path p,a.2) (.path q,b.2) = .gt := Ordering.then_eq_gt.mpr (.inl after)
    by_cases vars : dir = ascii "vars"
    · refine preorder.trans b mb m mm a ma ?_ ?_ ?_
      · rwa [compareRoutes order alike.2 km,if_pos vars]
      · rwa [compareRoutes order km alike.1,if_pos vars]
      · rwa [compareRoutes order alike.2 alike.1,if_pos vars]
    · refine preorder.trans a ma m mm b mb ?_ ?_ ?_
      · rwa [compareRoutes order alike.1 km,if_neg vars]
      · rwa [compareRoutes order km alike.2,if_neg vars]
      · rwa [compareRoutes order alike.1 alike.2,if_neg vars]
  · intro a ma b mb p q alike
    have done := mergeSortStable (compareValues order) l preorder
    have pairs := List.pairwise_map.mp longer
    have both {e f : ConfigValue H × Nat} {x y} (ef : Alike e.1 f.1 (ascii "vars") (.path x) (.path y))
        (listed : [e,f].Sublist (l.mergeSort (notAfter (compareValues order)))) : (trimmed x).length = (trimmed y).length := by
      have before :=
        List.rel_of_pairwise_cons (done.sorted.sublist listed) List.mem_cons_self
      have first := longerAlike ef before
      exact Nat.le_antisymm (by simpa using first)
        (List.rel_of_pairwise_cons (pairs.sublist listed) List.mem_cons_self _ x y ef)
    by_cases same : a = b
    · subst same
      have equal := alike.1.symm.trans alike.2
      cases equal
      rfl
    · rcases pairListed (done.perm.mem_iff.mpr ma) (done.perm.mem_iff.mpr mb) same with listed | listed
      · exact both alike listed
      · exact (both ⟨alike.2,alike.1⟩ listed).symm

end

theorem directiveOrderExact (order : List Bytes) (routes : List (ConfigValue H)) :
    (PreorderOn (compareValues order) routes.zipIdx ∧
      ∀ sort, SortBy sort → (sortRoutes sort routes order).Pairwise LongerFirst) ↔ Orderable order routes.zipIdx := by
  have unique : ∀ a ∈ routes.zipIdx, ∀ b ∈ routes.zipIdx, a.2 = b.2 → a = b := by
    intro a ma b mb same
    rw [List.mem_zipIdx_iff_getElem?] at ma mb
    rw [same,mb] at ma
    exact Prod.ext (Option.some.inj ma).symm same
  refine ⟨fun both => preorderOrderable both.1 (both.2 _ mergeSortStable),fun orderable => ?_⟩
  have preorder := orderablePreorder unique orderable
  exact ⟨preorder,fun sort contract => orderableLonger orderable (contract _ _ preorder)⟩

def pathRoute (path : String) : ConfigValue Nat :=
  ⟨ascii "respond",.route ⟨[.object [(ascii "path",.array [.string (ascii path)])]],[],[],false⟩⟩

def methodRoute : ConfigValue Nat :=
  ⟨ascii "respond",.route ⟨[.object [(ascii "method",.array [.string (ascii "GET")])]],[],[],false⟩⟩

theorem pathsInCircle : compareValues [ascii "respond"] (pathRoute "/a",0) (methodRoute,1) = .lt ∧
    compareValues [ascii "respond"] (methodRoute,1) (pathRoute "/abc",2) = .lt ∧
    compareValues [ascii "respond"] (pathRoute "/abc",2) (pathRoute "/a",0) = .lt ∧
    ¬ PreorderOn (compareValues [ascii "respond"]) [pathRoute "/a",methodRoute,pathRoute "/abc"].zipIdx := by
  have first : compareValues [ascii "respond"] (pathRoute "/a",0) (methodRoute,1) = .lt := by decide +kernel
  have second : compareValues [ascii "respond"] (methodRoute,1) (pathRoute "/abc",2) = .lt := by decide +kernel
  have third : compareValues [ascii "respond"] (pathRoute "/abc",2) (pathRoute "/a",0) = .lt := by decide +kernel
  refine ⟨first,second,third,fun preorder => ?_⟩
  refine preorder.trans (pathRoute "/a",0) (by simp) (methodRoute,1) (by simp) (pathRoute "/abc",2) (by simp)
    (by simp [first]) (by simp [second]) ?_
  rw [compareValuesSwap,third]
  rfl

end ZeroServe.RouteOrder
