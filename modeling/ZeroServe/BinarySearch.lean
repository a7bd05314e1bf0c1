import Mathlib.Order.Basic
import Mathlib.Tactic.Linarith

/-! Search by halving, over positions that are compared three ways with a key. -/
namespace ZeroServe.BinarySearch

def search (cmp : Nat → Ordering) : Nat → Int → Int → Int
  | 0,_,_ => -1
  | fuel+1,lo,hi =>
    if lo ≤ hi then
      let mid := lo + (hi - lo) / 2
      match cmp mid.toNat with
      | .eq => mid
      | .lt => search cmp fuel lo (mid - 1)
      | .gt => search cmp fuel (mid + 1) hi
    else -1

/- A key before a position is before all later ones, and one behind it behind all earlier. -/
structure Ordered (cmp : Nat → Ordering) (n : Nat) : Prop where
  before : ∀ i j, i ≤ j → j < n → cmp i = .lt → cmp j = .lt
  behind : ∀ i j, i ≤ j → j < n → cmp j = .gt → cmp i = .gt

structure Narrowed (cmp : Nat → Ordering) (n : Nat) (lo hi : Int) : Prop where
  start : 0 ≤ lo
  stop : hi < n
  left : ∀ i : Nat, i < lo → cmp i = .gt
  right : ∀ i : Nat, hi < i → i < n → cmp i = .lt

variable {cmp : Nat → Ordering} {n : Nat} {lo hi : Int}

theorem narrowedWhole : Narrowed cmp n 0 (n - 1) where
  start := le_rfl
  stop := by omega
  left := by intro i early; omega
  right := by intro i late inside; omega

theorem narrowedLeft (ordered : Ordered cmp n) (narrowed : Narrowed cmp n lo hi) {mid : Nat}
    (inside : lo ≤ mid ∧ mid ≤ hi) (less : cmp mid = .lt) : Narrowed cmp n lo (mid - 1) where
  start := narrowed.start
  stop := by have := narrowed.stop; omega
  left := narrowed.left
  right := fun i late within => ordered.before mid i (by omega) within less

theorem narrowedRight (ordered : Ordered cmp n) (narrowed : Narrowed cmp n lo hi) {mid : Nat}
    (inside : lo ≤ mid ∧ mid ≤ hi) (more : cmp mid = .gt) : Narrowed cmp n (mid + 1) hi where
  start := by have := narrowed.start; omega
  stop := narrowed.stop
  left := fun i early => ordered.behind i mid (by omega) (by have := narrowed.stop; omega) more
  right := narrowed.right

def Settled (cmp : Nat → Ordering) (n : Nat) (result : Int) : Prop :=
  (∃ i < n, result = i ∧ cmp i = .eq) ∨ (result = -1 ∧ ∀ i < n, cmp i ≠ .eq)

theorem settledEmpty (narrowed : Narrowed cmp n lo hi) (empty : hi < lo) : Settled cmp n (-1) := by
  refine .inr ⟨rfl,fun i within same => ?_⟩
  by_cases early : (i : Int) < lo
  · rw [narrowed.left i early] at same
    cases same
  · rw [narrowed.right i (by omega) within] at same
    cases same

theorem searchSettles (ordered : Ordered cmp n) {fuel : Nat} (enough : hi - lo + 1 < fuel)
    (narrowed : Narrowed cmp n lo hi) : Settled cmp n (search cmp fuel lo hi) := by
  induction fuel generalizing lo hi with
  | zero => exact settledEmpty narrowed (by omega)
  | succ fuel ih =>
    rw [search]
    split
    · rename_i open_
      have start := narrowed.start
      have stop := narrowed.stop
      obtain ⟨mid,middle⟩ : ∃ mid : Nat, lo + (hi - lo) / 2 = mid := ⟨(lo + (hi - lo) / 2).toNat,by omega⟩
      have inside : lo ≤ mid ∧ mid ≤ hi := by omega
      dsimp only
      rw [middle,Int.toNat_natCast]
      cases compared : cmp mid with
      | eq => exact .inl ⟨mid,by omega,rfl,compared⟩
      | lt => exact ih (by omega) (narrowedLeft ordered narrowed inside compared)
      | gt => exact ih (by omega) (narrowedRight ordered narrowed inside compared)
    · exact settledEmpty narrowed (by omega)

theorem searchExact (ordered : Ordered cmp n) (single : ∀ i < n, ∀ j < n, cmp i = .eq → cmp j = .eq → i = j) {i}
    (within : i < n) : search cmp (n + 1) 0 (n - 1) = i ↔ cmp i = .eq := by
  have settled := searchSettles ordered (by omega : ((n : Int) - 1) - 0 + 1 < ((n + 1 : Nat) : Int))
    (@narrowedWhole cmp n)
  constructor
  · intro found
    rcases settled with ⟨j,_,result,same⟩ | ⟨result,_⟩
    · have : i = j := by omega
      rwa [this]
    · omega
  · intro same
    rcases settled with ⟨j,inside,result,also⟩ | ⟨_,empty⟩
    · rw [result,single i within j inside same also]
    · exact absurd same (empty i within)

end ZeroServe.BinarySearch
