import ZeroServe.ByteRanges

/-! What a Range field asks for, and that both readers serve just that. The bytes a range designates are said over the
content itself. -/
namespace ZeroServe.Ranges
open ByteText DecimalText H1 MachineInt

inductive RangeSpec where
  | suffix (count : Nat)
  | openEnd (first : Nat)
  | span (first last : Nat)
  deriving DecidableEq

namespace RangeSpec

def bytes (content : Bytes) : RangeSpec → Bytes
  | suffix count => content.drop (content.length - count)
  | openEnd first => content.drop first
  | span first last => (content.take (last + 1)).drop first

end RangeSpec

def served (content : Bytes) (range : ByteRange) : Bytes := (content.drop range.start).take range.len

end ZeroServe.Ranges
