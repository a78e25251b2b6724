import StackScript.Image.Error

/-!
# Numbers of varying length

A number is written in groups of seven bits, the lowest group first, with the top bit set on every
byte but the last. Reading takes 64-bit numbers in up to ten bytes, and not only in the fewest.
-/

namespace StackScript.Varint

/-- The bytes of a number. -/
def encodeNat (n : Nat) : Bytes :=
  if n < 128 then [UInt8.ofNat n] else UInt8.ofNat (n % 128 + 128) :: encodeNat (n / 128)

/-- The bytes of a 64-bit number. -/
def encode (v : UInt64) : Bytes := encodeNat v.toNat

/-- The most bytes that a 64-bit number takes. -/
def maxLength : Nat := 10

/-- Reads a number of which `i` bytes with the value `acc` are already read, and gives it with the
bytes behind it. -/
def decodeFrom (i acc : Nat) : Bytes → Except ImageError (UInt64 × Bytes)
  | [] => .error (.truncated .item)
  | b :: bs =>
    if i = maxLength then .error (.corrupt .varint)
    else if b < 0x80 then
      if i + 1 = maxLength && 1 < b then .error (.corrupt .varint)
      else .ok (UInt64.ofNat (acc + b.toNat * Nat.pow 2 (7 * i)), bs)
    else decodeFrom (i + 1) (acc + b.toNat % 128 * Nat.pow 2 (7 * i)) bs

/-- Reads a number and gives it with the bytes behind it. -/
def decode (s : Bytes) : Except ImageError (UInt64 × Bytes) := decodeFrom 0 0 s

end StackScript.Varint
