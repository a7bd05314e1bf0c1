import ZeroServe.DecimalText
import ZeroServe.RegexMatch

/-! Numeric comparisons of expression matchers. Each side is expanded into a buffer of 32 bytes and read as a 16-bit
number, or as -1. -/
namespace ZeroServe.Expression
open ByteText DecimalText
open RegexMatch (writeCstr writeCstrSnprintf zsCaddyClampLen cBufferFitsCap expandCaddyPlaceholders fitsExact clampFits)

inductive NumericCompareOp where
  | gt | ge | lt | le
  deriving DecidableEq

def NumericCompareOp.holds : NumericCompareOp → Int → Int → Bool
  | .gt,a,b => b < a
  | .ge,a,b => b ≤ a
  | .lt,a,b => a < b
  | .le,a,b => a ≤ b

def parseU16Loop : Nat → Bytes → Int
  | value,[] => value
  | value,b::rest =>
    if ¬ decimalDigit b then -1
    else if 65535 < placeDigit value b then -1
    else parseU16Loop (placeDigit value b) rest

def zsCaddyParseU16 (s : Bytes) (len : Nat) : Int := if len = 0 then -1 else parseU16Loop 0 (s.take len)

def numericCap : Nat := 32

def numericOperand (value : Bytes) : Int :=
  let buffer := writeCstr value numericCap
  let len := zsCaddyClampLen buffer.raw numericCap
  if cBufferFitsCap buffer.raw numericCap then zsCaddyParseU16 buffer.bytes len else -1

def expressionNumericCompare (resolve : Bytes → Option Bytes) (left : Bytes) (op : NumericCompareOp) (right : Bytes) : Bool :=
  let l := numericOperand (expandCaddyPlaceholders resolve left)
  let r := numericOperand (expandCaddyPlaceholders resolve right)
  0 ≤ l && 0 ≤ r && op.holds l r

theorem parseDigits {s value} (digits : ∀ b ∈ s, decimalDigit b) (small : value ≤ 65535) :
    parseU16Loop value s = if s.foldl placeDigit value ≤ 65535 then ((s.foldl placeDigit value : Nat) : Int) else -1 := by
  induction s generalizing value with
  | nil => exact (if_pos small).symm
  | cons b s ih =>
    rw [parseU16Loop,if_neg (not_not.mpr (digits b List.mem_cons_self)),List.foldl_cons]
    by_cases fits : placeDigit value b ≤ 65535
    · rw [if_neg (by omega),ih (fun c mem => digits c (.tail _ mem)) fits]
    · have grown := placedGrow s (placeDigit value b)
      rw [if_pos (by omega),if_neg (by omega)]

def Readable (value : Bytes) (n : Nat) : Prop := value.length < numericCap ∧ n ≤ 65535

instance (value : Bytes) (n : Nat) : Decidable (Readable value n) := inferInstanceAs (Decidable (_ ∧ _))

theorem operandRead {value n} (number : decimalValue value = some n) :
    numericOperand value = if Readable value n then (n : Int) else -1 := by
  unfold decimalValue at number
  split at number
  · rename_i plain
    cases number
    have raw : (writeCstr value numericCap).raw = (min value.length numericCap : Nat) := rfl
    simp only [numericOperand,raw]
    rw [fitsExact]
    by_cases fits : value.length < numericCap
    · have bytes : (writeCstr value numericCap).bytes = value ++ [0] := by
        rw [writeCstr,writeCstrSnprintf,if_neg (by decide),List.take_of_length_le (by omega)]
      have positive : value.length ≠ 0 := fun empty => plain.1 (List.length_eq_zero_iff.mp empty)
      rw [if_pos (decide_eq_true fits),clampFits fits,bytes,zsCaddyParseU16,if_neg positive,List.take_left' rfl,
        parseDigits plain.2 (Nat.zero_le _)]
      simp only [Readable,fits,true_and]
    · rw [if_neg (by simpa using fits),if_neg fun readable => fits readable.1]
  · cases number

theorem compareReads {resolve : Bytes → Option Bytes} {left right a b} (op : NumericCompareOp)
    (l : decimalValue (expandCaddyPlaceholders resolve left) = some a)
    (r : decimalValue (expandCaddyPlaceholders resolve right) = some b) :
    expressionNumericCompare resolve left op right = true ↔
      Readable (expandCaddyPlaceholders resolve left) a ∧ Readable (expandCaddyPlaceholders resolve right) b ∧
      op.holds a b = true := by
  simp only [expressionNumericCompare]
  rw [operandRead l,operandRead r]
  by_cases leftReads : Readable (expandCaddyPlaceholders resolve left) a
  · by_cases rightReads : Readable (expandCaddyPlaceholders resolve right) b
    · simp [leftReads,rightReads]
    · simp [rightReads]
  · simp [leftReads]

theorem numericCompareExact (resolve : Bytes → Option Bytes) {left right : Bytes} {a b : Nat} (op : NumericCompareOp)
    (l : decimalValue (expandCaddyPlaceholders resolve left) = some a)
    (r : decimalValue (expandCaddyPlaceholders resolve right) = some b) :
    (expressionNumericCompare resolve left op right = true ↔ op.holds a b = true) ↔ (op.holds a b = true →
        Readable (expandCaddyPlaceholders resolve left) a ∧ Readable (expandCaddyPlaceholders resolve right) b) := by
  rw [compareReads op l r]
  tauto

theorem statusCompared :
    (expressionNumericCompare (fun _ => some (ascii "404")) (ascii "\x7bs\x7d") .ge (ascii "400") = true ↔
    NumericCompareOp.ge.holds 404 400 = true) :=
  (numericCompareExact (fun _ => some (ascii "404")) .ge (by decide +kernel) (by decide +kernel)).mpr
    fun _ => by decide +kernel

theorem largeUncompared :
    decimalValue (expandCaddyPlaceholders (fun _ => some (ascii "70000")) (ascii "\x7bn\x7d")) = some 70000 ∧
    expressionNumericCompare (fun _ => some (ascii "70000")) (ascii "\x7bn\x7d") .gt (ascii "500") = false ∧
    expressionNumericCompare (fun _ => some (ascii "70000")) (ascii "\x7bn\x7d") .le (ascii "500") = false := by
  decide +kernel

end ZeroServe.Expression
