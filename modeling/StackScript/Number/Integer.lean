import StackScript.Text.Bytes

/-!
# Reading integers

Signed and unsigned 64-bit integers as people write them. A text that is no integer and an
integer that does not fit are told apart.
-/

namespace StackScript

/-- Why a text is not a 64-bit integer. -/
inductive IntegerError
  /-- The text is not an integer. -/
  | malformed
  /-- The integer does not fit into 64 bits. -/
  | outOfRange
deriving DecidableEq

/-- The value of a decimal digit. -/
def decimalDigit? (b : UInt8) : Option Nat :=
  if 48 ≤ b && b ≤ 57 then some (b.toNat - 48) else none

/-- The value of a digit of a base up to sixteen, in either case. -/
def hexDigit? (b : UInt8) : Option Nat :=
  if 48 ≤ b && b ≤ 57 then some (b.toNat - 48)
  else if 97 ≤ b && b ≤ 102 then some (b.toNat - 87)
  else if 65 ≤ b && b ≤ 70 then some (b.toNat - 55)
  else none

/-- The number that digits of the given base spell behind those already read into `acc`. Reading
stops at the first digit that takes the number past 64 bits. -/
def digitsFrom (base acc : Nat) : Bytes → Except IntegerError Nat
  | [] => .ok acc
  | b :: bs =>
    match hexDigit? b with
    | some d =>
      if base ≤ d then .error .malformed
      else if 0x10000000000000000 ≤ acc * base + d then .error .outOfRange
      else digitsFrom base (acc * base + d) bs
    | none => .error .malformed

/-- The number that one decimal digit or more spell. -/
def readDigits (s : Bytes) : Except IntegerError Nat :=
  if s.isEmpty then .error .malformed else digitsFrom 10 0 s

/-- The sign in front of a number, true for minus, and what follows it. -/
def splitSign : Bytes → Bool × Bytes
  | 43 :: s => (false, s)
  | 45 :: s => (true, s)
  | s => (false, s)

/-- The 64-bit integer with a given value, if there is one. -/
def int64? (z : Int) : Option Int64 :=
  if -0x8000000000000000 ≤ z ∧ z < 0x8000000000000000 then some (Int64.ofInt z) else none

/-- A decimal integer with an optional sign. -/
def readInt64 (s : Bytes) : Except IntegerError Int64 :=
  let (negative, rest) := splitSign s
  match readDigits rest with
  | .error e => .error e
  | .ok n =>
    match int64? (if negative then -n else n) with
    | some z => .ok z
    | none => .error .outOfRange

/-- The decimal integer that a text spells, and zero if it spells none. -/
def int64OrZero (s : Bytes) : Int64 := (readInt64 s).toOption.getD 0

/-- The last kind of character seen while checking where underscores stand. -/
inductive Seen
  /-- Nothing, or a character that is no digit. -/
  | other
  /-- A digit or a base marker. -/
  | digit
  /-- An underscore. -/
  | underscore
deriving DecidableEq

/-- Whether each underscore of a number stands between digits, after what was last seen. -/
def underscoresFit (hex : Bool) : Seen → Bytes → Bool
  | seen, [] => seen != .underscore
  | seen, b :: bs =>
    if (decimalDigit? b).isSome || (hex && (hexDigit? b).isSome) then underscoresFit hex .digit bs
    else if b = 95 then seen == .digit && underscoresFit hex .underscore bs
    else seen != .underscore && underscoresFit hex .other bs

/-- Whether each underscore of a number, which may have a sign, stands between digits or between
the base marker and a digit. -/
def underscoresAllowed (s : Bytes) : Bool :=
  match (splitSign s).2 with
  | 48 :: m :: rest =>
    if m ∈ [98, 66, 111, 79] then underscoresFit false .digit rest
    else if m ∈ [120, 88] then underscoresFit true .digit rest
    else underscoresFit false .other (48 :: m :: rest)
  | rest => underscoresFit false .other rest

/-- The base that a marker announces, and the digits after it. A leading zero announces octal. -/
def splitBase : Bytes → Nat × Bytes
  | 48 :: m :: d :: rest =>
    if m ∈ [98, 66] then (2, d :: rest)
    else if m ∈ [111, 79] then (8, d :: rest)
    else if m ∈ [120, 88] then (16, d :: rest)
    else (8, m :: d :: rest)
  | 48 :: rest => (8, rest)
  | s => (10, s)

/-- An unsigned integer whose base its marker tells, with underscores between digits. -/
def readUInt64 (s : Bytes) : Except IntegerError UInt64 :=
  if s.isEmpty then .error .malformed
  else
    let (base, body) := splitBase s
    match digitsFrom base 0 (body.filter (· != 95)) with
    | .error e => .error e
    | .ok n =>
      if body.contains 95 && !underscoresAllowed s then .error .malformed
      else .ok (UInt64.ofNat n)

end StackScript
