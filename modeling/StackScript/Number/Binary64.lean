import StackScript.Text.Bytes

/-!
# Binary64 numbers

A real number is kept as its 64 bits, so that each NaN keeps its payload and the two zeros stay
apart. Arithmetic and comparison are those of IEEE 754; conversion to an integer and the parts of
a number are read off the bits.
-/

namespace StackScript

/-- A binary64 number by its bits: one of sign, eleven of exponent and 52 of fraction. -/
structure Binary64 where
  /-- The bit pattern. -/
  bits : UInt64
deriving DecidableEq

namespace Binary64

/-- The number as the machine computes with it. -/
def toFloat (x : Binary64) : Float := Float.ofBits x.bits

/-- The bits of a computed number. -/
def ofFloat (f : Float) : Binary64 := ⟨f.toBits⟩

/-- Positive zero. -/
def zero : Binary64 := ⟨0⟩

/-- The number nearest to an integer. -/
def ofInt64 (n : Int64) : Binary64 := ofFloat n.toFloat

/-- Whether the sign bit is set. -/
def negative (x : Binary64) : Bool := x.bits.toNat / 0x8000000000000000 = 1

/-- The exponent field. -/
def exponentField (x : Binary64) : Nat := x.bits.toNat / 0x10000000000000 % 2048

/-- The fraction field. -/
def fraction (x : Binary64) : Nat := x.bits.toNat % 0x10000000000000

/-- Whether the number is neither infinite nor a NaN. -/
def isFinite (x : Binary64) : Bool := x.exponentField != 2047

/-- Whether the bits stand for no number. -/
def isNaN (x : Binary64) : Bool := x.exponentField == 2047 && x.fraction != 0

/-- The magnitude of a finite number is `significand * 2 ^ exponent`. -/
def significand (x : Binary64) : Nat :=
  if x.exponentField = 0 then x.fraction else 0x10000000000000 + x.fraction

/-- The power of two that goes with `significand`. -/
def exponent (x : Binary64) : Int :=
  if x.exponentField = 0 then -1074 else (x.exponentField : Int) - 1075

/-- The sum. -/
def add (x y : Binary64) : Binary64 := ofFloat (x.toFloat + y.toFloat)

/-- The difference. -/
def sub (x y : Binary64) : Binary64 := ofFloat (x.toFloat - y.toFloat)

/-- The product. -/
def mul (x y : Binary64) : Binary64 := ofFloat (x.toFloat * y.toFloat)

/-- The quotient. -/
def div (x y : Binary64) : Binary64 := ofFloat (x.toFloat / y.toFloat)

/-- Numerical equality: the zeros are equal, and a NaN equals nothing. -/
def eq (x y : Binary64) : Bool := x.toFloat == y.toFloat

/-- Whether `y` is less than `x`; never so of a NaN. -/
def gt (x y : Binary64) : Bool := y.toFloat < x.toFloat

/-- Whether the number counts as true: all but the zeros do. -/
def truth (x : Binary64) : Bool := !x.eq zero

/-- The greatest whole number that is not greater. -/
def floor (x : Binary64) : Binary64 := ofFloat x.toFloat.floor

/-- The least whole number that is not less. -/
def ceil (x : Binary64) : Binary64 := ofFloat x.toFloat.ceil

/-- The magnitude of a finite number without its fraction part. -/
def wholePart (x : Binary64) : Nat :=
  if 0 ≤ x.exponent then x.significand * Nat.pow 2 x.exponent.toNat
  else x.significand / Nat.pow 2 (-x.exponent).toNat

/-- The number rounded toward zero, and the least integer for what does not fit: infinities, NaNs
and numbers outside the 64-bit range. -/
def toInt64 (x : Binary64) : Int64 :=
  let z : Int := if x.negative then -x.wholePart else x.wholePart
  if x.isFinite && -0x8000000000000000 ≤ z && z < 0x8000000000000000 then Int64.ofInt z
  else Int64.minValue

end Binary64

end StackScript
