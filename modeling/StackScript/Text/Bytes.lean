/-!
# Byte strings

Texts and binary files are lists of bytes: names and string values may hold bytes that are no
text at all, so nothing here assumes UTF-8. A string literal stands for its UTF-8 bytes where a
byte string is expected.
-/

namespace StackScript

/-- A byte string. -/
abbrev Bytes := List UInt8

/-- The UTF-8 bytes of a string. -/
def utf8 (s : String) : Bytes := s.toList.flatMap String.utf8EncodeChar

instance : Coe String Bytes := ⟨utf8⟩

/-- The digit `n` of a base up to sixteen, in lower case. -/
def digit (n : Nat) : UInt8 := if n < 10 then UInt8.ofNat (48 + n) else UInt8.ofNat (87 + n)

/-- The decimal digits of `n` in front of `rest`. -/
def decimalOnto (n : Nat) (rest : Bytes) : Bytes :=
  if n < 10 then digit n :: rest else decimalOnto (n / 10) (digit (n % 10) :: rest)

/-- A natural number in decimal, without leading zeros. -/
def decimal (n : Nat) : Bytes := decimalOnto n []

/-- An integer in decimal, with a sign only when it is negative. -/
def decimalInt (z : Int) : Bytes :=
  if z < 0 then 45 :: decimal z.natAbs else decimal z.toNat

/-- The last `width` hexadecimal digits of `n`, leading zeros included. -/
def hexDigits (width n : Nat) : Bytes :=
  (List.range width).map fun i => digit (n / Nat.pow 16 (width - 1 - i) % 16)

/-- `s` with zeros in front up to the given width. -/
def padZeros (width : Nat) (s : Bytes) : Bytes := List.replicate (width - s.length) 48 ++ s

/-- `s` with spaces behind up to the given width. -/
def padSpaces (width : Nat) (s : Bytes) : Bytes := s ++ List.replicate (width - s.length) 32

/-- The pieces in order with `sep` between each two. -/
def joinWith (sep : Bytes) (pieces : List Bytes) : Bytes := (pieces.intersperse sep).flatten

/-- Whether `s` begins with `start`. -/
def startsWith (start s : Bytes) : Bool := start.isPrefixOf s

/-- Whether `s` ends with `ending`. -/
def endsWith (ending s : Bytes) : Bool := ending.isSuffixOf s

end StackScript
