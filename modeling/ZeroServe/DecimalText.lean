import ZeroServe.ByteText

/-! Strings of decimal digits, read without a bound. -/
namespace ZeroServe.DecimalText
open ByteText

def decimalDigit (b : UInt8) : Prop := 48 ≤ b ∧ b ≤ 57

instance (b : UInt8) : Decidable (decimalDigit b) := inferInstanceAs (Decidable (_ ∧ _))

def placeDigit (acc : Nat) (b : UInt8) : Nat := acc * 10 + (b.toNat - 48)

def decimalValue (s : Bytes) : Option Nat :=
  if s ≠ [] ∧ ∀ b ∈ s, decimalDigit b then some (s.foldl placeDigit 0) else none

theorem digitRead {b} (digit : decimalDigit b) : digitVal 10 b = some (b.toNat - 48) := by
  revert b
  decide +kernel

theorem placedGrow (s : Bytes) (acc : Nat) : acc ≤ s.foldl placeDigit acc := by
  induction s generalizing acc with
  | nil => exact Nat.le_refl acc
  | cons b s ih =>
    have grown : acc ≤ placeDigit acc b := by
      rw [placeDigit]
      omega
    exact grown.trans (ih _)

theorem digitsRead {s bound acc} (digits : ∀ b ∈ s, decimalDigit b) (small : acc < bound) : readDigits 10 bound acc s =
      if s.foldl placeDigit acc < bound then some (s.foldl placeDigit acc) else none := by
  induction s generalizing acc with
  | nil => exact (if_pos small).symm
  | cons b s ih =>
    have digit := digitRead (digits b (by simp))
    rw [readDigits,digit,List.foldl_cons]
    by_cases fits : placeDigit acc b < bound
    · rw [← ih (fun c mem => digits c (by simp [mem])) fits]
      exact if_pos fits
    · have grown := placedGrow s (placeDigit acc b)
      rw [if_neg (by omega)]
      exact if_neg fits

theorem decimalRead {s n} (bound : Nat) (positive : 0 < bound) (value : decimalValue s = some n) :
    fromStrRadix 10 bound s = if n < bound then some n else none := by
  unfold decimalValue at value
  split at value
  · rename_i plain
    cases value
    have unsigned : s.head? ≠ some 43 := by
      intro plus
      have digit := plain.2 43 (List.mem_of_mem_head? plus)
      revert digit
      decide
    rw [fromStrRadix,if_neg unsigned]
    exact (if_neg plain.1).trans (digitsRead plain.2 positive)
  · cases value

def unsigned (s : Bytes) : Bytes := if s.head? = some 43 then s.tail else s

end ZeroServe.DecimalText
