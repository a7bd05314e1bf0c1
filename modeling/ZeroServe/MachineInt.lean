import Mathlib

/-! Arithmetic on machine integers: an operation gives the value the machine computes and whether it is the exact one.
-/
namespace ZeroServe.MachineInt

structure Arith (α : Type) where
  value : α
  exact : Bool
  deriving DecidableEq

instance : Monad Arith where
  pure a := ⟨a,true⟩
  bind x f := ⟨(f x.value).value,x.exact && (f x.value).exact⟩

@[simp] theorem pureExact {α : Type} (a : α) : (pure a : Arith α).exact = true := rfl

def asI64 (n : Nat) : Int := Int.bmod n (2 ^ 64)
def addI64 (a b : Int) : Arith Int := ⟨Int.bmod (a + b) (2 ^ 64),decide (-2 ^ 63 ≤ a + b ∧ a + b < 2 ^ 63)⟩
end ZeroServe.MachineInt
