import StackScript.Number.Binary64
import StackScript.Number.Integer

/-!
# Reading numbers with a fraction

Decimal and hexadecimal notation, and the names of the infinities and of NaN in any case. The
result is the nearest binary64 number, the one with the even significand of two equally near. A
number that is too large is refused; one that is too small is a zero.
-/

namespace StackScript

namespace Binary64

/-- The number with the given sign, significand below `2 ^ 53` and exponent, unless the exponent is
too large. -/
def assemble? (negative : Bool) (m : Nat) (e : Int) : Option Binary64 :=
  let field := if m < 0x10000000000000 then 0 else (e + 1075).toNat
  if 2047 ≤ field then none
  else
    let sign := if negative then 0x8000000000000000 else 0
    some ⟨UInt64.ofNat (sign + field * 0x10000000000000 + m % 0x10000000000000)⟩

/-- `num / den` rounded to an integer, ties to the even one. -/
def roundQuotient (num den : Nat) : Nat :=
  let q := num / den
  let rest := 2 * (num % den)
  if rest < den || (rest == den && q % 2 == 0) then q else q + 1

/-- `num / (den * 2 ^ e)` rounded to an integer, ties to the even one. -/
def roundScaled (num den : Nat) (e : Int) : Nat :=
  if 0 ≤ e then roundQuotient num (den * Nat.pow 2 e.toNat)
  else roundQuotient (num * Nat.pow 2 (-e).toNat) den

/-- The number nearest to the quotient of two positive integers, unless it is too large. -/
def nearest? (negative : Bool) (num den : Nat) : Option Binary64 :=
  let guess : Int := (Nat.log2 num : Int) - Nat.log2 den - 53
  let whole :=
    if 0 ≤ guess then num / (den * Nat.pow 2 guess.toNat)
    else num * Nat.pow 2 (-guess).toNat / den
  let e := max (if whole < 0x20000000000000 then guess else guess + 1) (-1074)
  let m := roundScaled num den e
  if m = 0x20000000000000 then assemble? negative 0x10000000000000 (e + 1)
  else assemble? negative m e

end Binary64

namespace Numeral

/-- The digits of a numeral as one number, and how many of them stand behind the point. -/
structure Mantissa where
  /-- The digits without the point. -/
  value : Nat
  /-- The number of digits behind the point. -/
  places : Nat
  /-- Whether there is a digit at all. -/
  hasDigit : Bool
  /-- Whether a point was read. -/
  point : Bool

/-- Reads digits of the given base, at most one point, and underscores, up to the first character
that is none of these. -/
def readMantissa (base : Nat) (m : Mantissa) : Bytes → Mantissa × Bytes
  | [] => (m, [])
  | b :: bs =>
    if b = 95 then readMantissa base m bs
    else if b = 46 then
      if m.point then (m, b :: bs) else readMantissa base { m with point := true } bs
    else match hexDigit? b with
      | some d =>
        if d < base then
          readMantissa base
            { m with
              value := m.value * base + d
              places := if m.point then m.places + 1 else m.places
              hasDigit := true } bs
        else (m, b :: bs)
      | none => (m, b :: bs)

/-- Reads the digits of an exponent. Once the number has five digits the rest of them is ignored:
no number of interest has a larger exponent. -/
def readExponentDigits (acc : Nat) : Bytes → Nat × Bytes
  | [] => (acc, [])
  | b :: bs =>
    if b = 95 then readExponentDigits acc bs
    else match decimalDigit? b with
      | some d => readExponentDigits (if acc < 10000 then acc * 10 + d else acc) bs
      | none => (acc, b :: bs)

/-- Reads an exponent after its mark, which must have a digit first. -/
def readExponent? (s : Bytes) : Option (Int × Bytes) :=
  let (negative, rest) := splitSign s
  match rest with
  | b :: _ =>
    if (decimalDigit? b).isSome then
      let (n, left) := readExponentDigits 0 rest
      some (if negative then -(n : Int) else n, left)
    else none
  | [] => none

/-- The number `value * 10 ^ e`; far outside the range of the numbers the power is not computed. -/
def ofDecimal? (negative : Bool) (value : Nat) (e : Int) : Option Binary64 :=
  let point := ((decimal value).length : Int) + e
  if value = 0 || point < -330 then Binary64.assemble? negative 0 0
  else if 310 < point then none
  else if 0 ≤ e then Binary64.nearest? negative (value * Nat.pow 10 e.toNat) 1
  else Binary64.nearest? negative value (Nat.pow 10 (-e).toNat)

/-- The number `value * 2 ^ e`; far outside the range of the numbers the power is not computed. -/
def ofPowerOfTwo? (negative : Bool) (value : Nat) (e : Int) : Option Binary64 :=
  let point := (Nat.log2 value : Int) + e
  if value = 0 || point < -1100 then Binary64.assemble? negative 0 0
  else if 1100 < point then none
  else if 0 ≤ e then Binary64.nearest? negative (value * Nat.pow 2 e.toNat) 1
  else Binary64.nearest? negative value (Nat.pow 2 (-e).toNat)

/-- The digits of no numeral yet. -/
def Mantissa.start : Mantissa := ⟨0, 0, false, false⟩

/-- A number in decimal notation without its sign; the exponent may be missing. -/
def readDecimal? (negative : Bool) (s : Bytes) : Option Binary64 :=
  let (m, rest) := readMantissa 10 .start s
  if !m.hasDigit then none
  else match rest with
    | [] => ofDecimal? negative m.value (-m.places)
    | b :: bs =>
      if b = 101 || b = 69 then
        match readExponent? bs with
        | some (e, []) => ofDecimal? negative m.value (e - m.places)
        | _ => none
      else none

/-- A number in hexadecimal notation behind its base marker; the exponent must be there. -/
def readHexadecimal? (negative : Bool) (s : Bytes) : Option Binary64 :=
  let (m, rest) := readMantissa 16 .start s
  match rest with
  | b :: bs =>
    if m.hasDigit && (b = 112 || b = 80) then
      match readExponent? bs with
      | some (e, []) => ofPowerOfTwo? negative m.value (e - 4 * m.places)
      | _ => none
    else none
  | [] => none

/-- An ASCII letter in lower case. -/
def lowerByte (b : UInt8) : UInt8 := if 65 ≤ b && b ≤ 90 then b + 32 else b

/-- The number that a name stands for. -/
def named? (s : Bytes) : Option Binary64 :=
  let (negative, rest) := splitSign s
  let low := rest.map lowerByte
  if low == utf8 "inf" || low == utf8 "infinity" then
    some ⟨if negative then 0xFFF0000000000000 else 0x7FF0000000000000⟩
  else if s.map lowerByte == utf8 "nan" then some ⟨0x7FF8000000000001⟩
  else none

end Numeral

/-- The number that a text spells, unless it spells none or one that is too large. -/
def readBinary64? (s : Bytes) : Option Binary64 :=
  match Numeral.named? s with
  | some x => some x
  | none =>
    if s.contains 95 && !underscoresAllowed s then none
    else
      let (negative, rest) := splitSign s
      match rest with
      | 48 :: m :: d :: more =>
        if m = 120 || m = 88 then Numeral.readHexadecimal? negative (d :: more)
        else Numeral.readDecimal? negative rest
      | _ => Numeral.readDecimal? negative rest

/-- The number that a text spells, and zero if it spells none. -/
def binary64OrZero (s : Bytes) : Binary64 := (readBinary64? s).getD .zero

end StackScript
