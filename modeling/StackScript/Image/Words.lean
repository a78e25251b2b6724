import StackScript.Text.Bytes

/-!
# Fixed-width words

Natural numbers as a fixed number of bytes, the least significant first.
-/

namespace StackScript

/-- The lowest `width` bytes of a number. -/
def littleEndian : Nat → Nat → Bytes
  | 0, _ => []
  | width + 1, n => UInt8.ofNat (n % 256) :: littleEndian width (n / 256)

/-- The number that bytes stand for. -/
def ofLittleEndian : Bytes → Nat
  | [] => 0
  | b :: bs => b.toNat + 256 * ofLittleEndian bs

end StackScript
