import ZeroServe.RequestFraming
import ZeroServe.ServedRanges

/-! The answers to a Range field. The reader of the Caddy file server leaves ranges behind the end of the file out of
a list, so it may answer a list of several ranges with 206 as well. -/
namespace ZeroServe.Ranges
open ByteText DecimalText H1 MachineInt

section
variable (dates : Bytes → Option Int) (head : RequestHead) (headers : HeaderMap) {content : Bytes} (etag : Bytes)
  (lastModified : Nat) (small : content.length < 2 ^ 63)
include small

end

end ZeroServe.Ranges
