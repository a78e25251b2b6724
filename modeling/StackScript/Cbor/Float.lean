import StackScript.Number.Binary64

/-!
# Floats of fewer bits

The binary16 and binary32 formats beside binary64. Widening is exact and makes every NaN quiet;
narrowing is done only where it is exact.
-/

namespace StackScript

/-- A binary floating-point format narrower than binary64. -/
structure FloatFormat where
  /-- The bits of the exponent field. -/
  exponentBits : Nat
  /-- The bits of the fraction field. -/
  fractionBits : Nat

namespace FloatFormat

/-- The format of 16 bits. -/
def binary16 : FloatFormat := ⟨5, 10⟩

/-- The format of 32 bits. -/
def binary32 : FloatFormat := ⟨8, 23⟩

/-- The greatest value of the exponent field, which infinities and NaNs have. -/
def maxField (f : FloatFormat) : Nat := Nat.pow 2 f.exponentBits - 1

/-- The exponent that belongs to the exponent field zero or one, for a significand that is a whole
number. -/
def minExponent (f : FloatFormat) : Int := 2 - Nat.pow 2 (f.exponentBits - 1) - f.fractionBits

/-- The bits of a binary64 number from its sign, exponent field and fraction. -/
def pack64 (sign field fraction : Nat) : Binary64 :=
  ⟨UInt64.ofNat (sign * 0x8000000000000000 + field * 0x10000000000000 + fraction)⟩

/-- The binary64 number that `bits` of the format stand for. -/
def widen (f : FloatFormat) (bits : Nat) : Binary64 :=
  let sign := bits / Nat.pow 2 (f.exponentBits + f.fractionBits) % 2
  let field := bits / Nat.pow 2 f.fractionBits % Nat.pow 2 f.exponentBits
  let fraction := bits % Nat.pow 2 f.fractionBits
  let shifted := fraction * Nat.pow 2 (52 - f.fractionBits)
  if field = f.maxField then
    pack64 sign 2047 (if fraction = 0 then 0 else shifted ||| 0x8000000000000)
  else if field = 0 then
    if fraction = 0 then pack64 sign 0 0
    else
      let top := Nat.log2 fraction
      pack64 sign (f.minExponent + top + 1023).toNat
        ((fraction - Nat.pow 2 top) * Nat.pow 2 (52 - top))
  else pack64 sign (field + 1023 - (Nat.pow 2 (f.exponentBits - 1) - 1)) shifted

/-- How often two divides a positive number, up to `fuel`. -/
def twos : Nat → Nat → Nat
  | 0, _ => 0
  | fuel + 1, n => if n % 2 = 0 then twos fuel (n / 2) + 1 else 0

/-- The bits of the format that stand for a binary64 number other than a NaN, if some do. -/
def narrow? (f : FloatFormat) (x : Binary64) : Option Nat :=
  let sign := if x.negative then Nat.pow 2 (f.exponentBits + f.fractionBits) else 0
  if !x.isFinite then some (sign + f.maxField * Nat.pow 2 f.fractionBits)
  else if x.significand = 0 then some sign
  else
    let k := twos 53 x.significand
    let m := x.significand / Nat.pow 2 k
    let e := x.exponent + k
    let top := Nat.log2 m
    -- The number is `m * 2 ^ e` with `m` odd, and its leading bit has the weight `2 ^ (e + top)`.
    let lead := e + top
    if f.fractionBits < top || e < f.minExponent then none
    else if (f.maxField : Int) ≤ lead + f.maxField / 2 then none
    else if lead < f.minExponent + f.fractionBits then
      some (sign + m * Nat.pow 2 (e - f.minExponent).toNat)
    else
      let field := (lead + f.maxField / 2).toNat
      let fraction := (m - Nat.pow 2 top) * Nat.pow 2 (f.fractionBits - top)
      some (sign + field * Nat.pow 2 f.fractionBits + fraction)

end FloatFormat

end StackScript
