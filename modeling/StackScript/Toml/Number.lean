import StackScript.Number.Reading

/-!
# Numbers in settings

Integers in decimal with an optional sign, or in another base behind `0x`, `0o` or `0b`; real
numbers with a fraction, an exponent or both. An underscore may stand between two digits, and a
decimal number has no needless leading zero.
-/

namespace StackScript.Toml

/-- The value of a digit in a base. -/
def digitIn? (base : Nat) (b : UInt8) : Option Nat := (hexDigit? b).filter (· < base)

/-- The digits of a number in a base, without the underscores between them. -/
def ungroup? (base : Nat) (s : Bytes) : Option Bytes :=
  let groups := s.splitOn 95
  if groups.all fun g => !g.isEmpty && g.all fun b => (digitIn? base b).isSome then
    some groups.flatten
  else none

/-- The number with given digits. -/
def valueIn (base : Nat) (digits : Bytes) : Nat :=
  digits.foldl (fun n b => base * n + (digitIn? base b).getD 0) 0

/-- The digits of a whole number in decimal. -/
def wholeDigits? (s : Bytes) : Option Bytes :=
  (ungroup? 10 s).filter fun digits => digits.length = 1 || digits.head? != some 48

/-- Reads an integer. -/
def integer? (s : Bytes) : Option Int64 :=
  match s with
  | 48 :: 120 :: digits => (ungroup? 16 digits).bind fun ds => int64? (valueIn 16 ds)
  | 48 :: 111 :: digits => (ungroup? 8 digits).bind fun ds => int64? (valueIn 8 ds)
  | 48 :: 98 :: digits => (ungroup? 2 digits).bind fun ds => int64? (valueIn 2 ds)
  | _ =>
    let (negative, digits) := splitSign s
    (wholeDigits? digits).bind fun ds =>
      let n : Int := valueIn 10 ds
      int64? (if negative then -n else n)

/-- Whether a text is the exponent of a real number, sign included. -/
def isExponent (s : Bytes) : Bool := (ungroup? 10 (splitSign s).2).isSome

/-- Whether a text is a whole number, perhaps with a fraction. -/
def isDecimal (s : Bytes) : Bool :=
  match s.span (· != 46) with
  | (whole, []) => (wholeDigits? whole).isSome
  | (whole, _ :: fraction) => (wholeDigits? whole).isSome && (ungroup? 10 fraction).isSome

/-- Whether a byte marks an exponent. -/
def isExponentMark (b : UInt8) : Bool := b = 101 || b = 69

/-- Whether a text without a sign is a real number in digits, and not just a whole number. -/
def isReal (s : Bytes) : Bool :=
  match s.span fun b => !isExponentMark b with
  | (m, []) => m.contains 46 && isDecimal m
  | (m, _ :: exponent) => isDecimal m && isExponent exponent

/-- Reads a real number that is not too large. -/
def real? (s : Bytes) : Option Binary64 :=
  let unsigned := (splitSign s).2
  if unsigned == "nan" then readBinary64? "nan"
  else if unsigned == "inf" then readBinary64? s
  else if isReal unsigned then readBinary64? (s.filter (· != 95))
  else none

end StackScript.Toml
