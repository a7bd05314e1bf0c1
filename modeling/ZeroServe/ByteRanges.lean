import ZeroServe.DecimalText
import ZeroServe.EntityTags
import ZeroServe.H1Head
import ZeroServe.IpText
import ZeroServe.MachineInt

/-! Byte ranges of a file, as the readers of the site's own static files and of the Caddy file server decide them.
Reading an HTTP date is a parameter, a date being its seconds. -/
namespace ZeroServe.Ranges
open ByteText DecimalText H1 MachineInt

structure ByteRange where
  start : Nat
  len : Nat
  deriving DecidableEq

variable (dates : Bytes → Option Int)

end ZeroServe.Ranges
