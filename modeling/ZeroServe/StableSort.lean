import Mathlib.Data.List.Sort

/-! What a stable sort by a comparison promises: nothing unless the comparison is a total
preorder on the entries, and then a sorted permutation that keeps the order of equal entries. -/
namespace ZeroServe.StableSort

variable {α : Type}

structure PreorderOn (cmp : α → α → Ordering) (l : List α) : Prop where
  swap : ∀ a ∈ l, ∀ b ∈ l, cmp a b = (cmp b a).swap
  trans : ∀ a ∈ l, ∀ b ∈ l, ∀ c ∈ l, cmp a b ≠ .gt → cmp b c ≠ .gt → cmp a c ≠ .gt

structure StablySorted (cmp : α → α → Ordering) (l out : List α) : Prop where
  perm : out.Perm l
  sorted : out.Pairwise (fun a b => cmp a b ≠ .gt)
  stable : ∀ c : List α, c.Pairwise (fun a b => cmp a b ≠ .gt) → c.Sublist l → c.Sublist out

def SortBy (sort : (α → α → Ordering) → List α → List α) : Prop :=
  ∀ cmp l, PreorderOn cmp l → StablySorted cmp l (sort cmp l)

theorem PreorderOn.notBoth {cmp : α → α → Ordering} {l} (order : PreorderOn cmp l) {a b} (first : a ∈ l)
    (second : b ∈ l) : cmp a b ≠ .gt ∨ cmp b a ≠ .gt := by
  rw [order.swap b second a first]
  cases cmp a b <;> simp

theorem pairListed {l : List α} {a b : α} (first : a ∈ l) (second : b ∈ l) (other : a ≠ b) :
    [a,b].Sublist l ∨ [b,a].Sublist l := by
  induction l with
  | nil => cases first
  | cons x l ih =>
    rcases List.mem_cons.mp first with rfl | first'
    · rcases List.mem_cons.mp second with same | second'
      · exact absurd same.symm other
      · exact .inl ((List.singleton_sublist.mpr second').cons_cons a)
    · rcases List.mem_cons.mp second with rfl | second'
      · exact .inr ((List.singleton_sublist.mpr first').cons_cons b)
      · exact (ih first' second').imp (·.cons x) (·.cons x)

theorem StablySorted.pairKept [DecidableEq α] {cmp : α → α → Ordering} {l out} (done : StablySorted cmp l out)
    (order : PreorderOn cmp l) {a b} (first : a ∈ l) (second : b ∈ l) (equal : cmp a b = .eq)
    (after : [a,b].Sublist out) : [a,b].Sublist l := by
  have back : cmp b a = .eq := by
    have swap := order.swap b second a first
    rw [equal] at swap
    exact swap
  have self {x : α} (mem : x ∈ l) : cmp x x ≠ .gt := (order.notBoth mem mem).elim id id
  have both : (l.filter fun x => x = a ∨ x = b).Pairwise fun x y => cmp x y ≠ .gt := by
    refine List.Pairwise.imp_of_mem (R := fun _ _ => True) ?_ (List.pairwise_of_forall fun _ _ => trivial)
    intro x y left right _
    have left' := (List.mem_filter.mp left).2
    have right' := (List.mem_filter.mp right).2
    simp only [decide_eq_true_eq] at left' right'
    rcases left' with rfl | rfl <;> rcases right' with rfl | rfl
    · exact self first
    · simp [equal]
    · simp [back]
    · exact self second
  have kept := (done.stable _ both List.filter_sublist).filter fun x => decide (x = a ∨ x = b)
  simp only [List.filter_filter,Bool.and_self] at kept
  have same := kept.eq_of_length (done.perm.filter fun x => decide (x = a ∨ x = b)).length_eq.symm
  have inside := after.filter fun x => decide (x = a ∨ x = b)
  simp only [true_or,or_true,decide_true,List.filter_cons_of_pos,List.filter_nil] at inside
  rw [← same] at inside
  exact inside.trans List.filter_sublist

section
variable {cmp : α → α → Ordering} {l : List α}

def notAfter (cmp : α → α → Ordering) (a b : α) : Bool := decide (cmp a b ≠ .gt)

theorem mergeSortAttached (l : List α) : l.mergeSort (notAfter cmp) =
      (l.attach.mergeSort fun a b => notAfter cmp a.val b.val).map Subtype.val := by
  have mapped := List.map_mergeSort (l := l.attach) (f := Subtype.val) (s := notAfter cmp)
    (r := fun a b => notAfter cmp a.val b.val) fun _ _ _ _ => rfl
  rw [mapped,List.attach_map_subtype_val]

theorem mergeSortStable : SortBy fun (cmp : α → α → Ordering) l => l.mergeSort (notAfter cmp) := by
  intro cmp l order
  have trans (a b c : {x // x ∈ l}) (first : notAfter cmp a.val b.val) (second : notAfter cmp b.val c.val) :
      notAfter cmp a.val c.val := by
    simp only [notAfter,decide_eq_true_eq] at *
    exact order.trans _ a.2 _ b.2 _ c.2 first second
  have total (a b : {x // x ∈ l}) : notAfter cmp a.val b.val || notAfter cmp b.val a.val := by
    have either := order.notBoth a.2 b.2
    simpa [notAfter] using either
  refine ⟨List.mergeSort_perm _ _,?_,?_⟩
  · dsimp only
    rw [mergeSortAttached,List.pairwise_map]
    refine (List.pairwise_mergeSort trans total l.attach).imp fun sorted => ?_
    simpa [notAfter] using sorted
  · intro c sorted listed
    rw [← List.attach_map_subtype_val l] at listed
    obtain ⟨inner,within,rfl⟩ := List.sublist_map_iff.mp listed
    dsimp only
    rw [mergeSortAttached]
    refine (List.sublist_mergeSort trans total ?_ within).map _
    refine (List.pairwise_map.mp sorted).imp fun before => ?_
    simpa [notAfter] using before

end

variable (r : α → α → Prop) [DecidableRel r] [IsTrans α r] {s : α → α → Prop} (l : List α)

theorem insertedPairwise (a : α) (sorted : l.Pairwise r) : (l.orderedInsert r a).Pairwise s ↔
    (∀ b ∈ l, if r a b then s a b else s b a) ∧ l.Pairwise s := by
  induction l with
  | nil => simp
  | cons b l ih =>
    obtain ⟨first,sorted⟩ := List.pairwise_cons.mp sorted
    by_cases before : r a b
    · have all (c : α) (mem : c ∈ b::l) : r a c := by
        rcases List.mem_cons.mp mem with rfl | behind
        · exact before
        · exact IsTrans.trans a b c before (first c behind)
      rw [List.orderedInsert_cons_of_le r l before,List.pairwise_cons]
      exact and_congr_left fun _ => forall₂_congr fun c mem => by rw [if_pos (all c mem)]
    · simp only [List.orderedInsert_of_not_le r l before,List.pairwise_cons,List.mem_orderedInsert,ih sorted,
        List.forall_mem_cons,if_neg before,forall_eq_or_imp]
      tauto

theorem sortedPairwise [Std.Total r] :
    (l.insertionSort r).Pairwise s ↔ l.Pairwise fun a b => if r a b then s a b else s b a := by
  induction l with
  | nil => simp
  | cons a l ih =>
    rw [List.insertionSort_cons,insertedPairwise r _ a (List.pairwise_insertionSort r l),ih,List.pairwise_cons]
    simp only [List.mem_insertionSort]

end ZeroServe.StableSort
