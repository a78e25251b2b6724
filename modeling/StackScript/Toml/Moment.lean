import StackScript.Number.Integer

/-!
# Dates and times

A date is `YYYY-MM-DD`, a time is `hh:mm`, `hh:mm:ss` or that with a fraction of the second. A
moment is a date, a time, or a date and a time with `T` or a blank between them and perhaps an
offset behind. Small letters stand for `T` and `Z` too.
-/

namespace StackScript.Toml

/-- The number of exactly `width` digits, and the rest. -/
def takeNumber? (width : Nat) (s : Bytes) : Option (Nat × Bytes) :=
  let digits := s.take width
  if digits.length = width && digits.all fun b => (decimalDigit? b).isSome then
    some (digits.foldl (fun n b => 10 * n + (b - 48).toNat) 0, s.drop width)
  else none

/-- A number of exactly `width` digits from `lo` to `hi`, and the rest. -/
def takeWithin? (width lo hi : Nat) (s : Bytes) : Option (Nat × Bytes) :=
  (takeNumber? width s).filter fun (n, _) => lo ≤ n && n ≤ hi

/-- The rest behind a byte that must come first. -/
def takeByte? (b : UInt8) (s : Bytes) : Option Bytes :=
  if s.head? = some b then some s.tail else none

/-- Whether a year has a leap day. -/
def isLeap (year : Nat) : Bool := year % 4 == 0 && (year % 100 != 0 || year % 400 == 0)

/-- The number of days in a month. -/
def daysIn (year month : Nat) : Nat :=
  if month = 2 then (if isLeap year then 29 else 28)
  else if month = 4 || month = 6 || month = 9 || month = 11 then 30
  else 31

/-- The rest behind a date. -/
def afterDate? (s : Bytes) : Option Bytes := do
  let (year, s) ← takeNumber? 4 s
  let s ← takeByte? 45 s
  let (month, s) ← takeWithin? 2 1 12 s
  let s ← takeByte? 45 s
  let (_, s) ← takeWithin? 2 1 (daysIn year month) s
  return s

/-- The rest behind a fraction of a second, if there is one. -/
def afterFraction (s : Bytes) : Bytes :=
  match s with
  | 46 :: rest =>
    let behind := rest.dropWhile fun b => (decimalDigit? b).isSome
    if behind.length < rest.length then behind else s
  | _ => s

/-- The rest behind a time. -/
def afterTime? (s : Bytes) : Option Bytes := do
  let (_, s) ← takeWithin? 2 0 23 s
  let s ← takeByte? 58 s
  let (_, s) ← takeWithin? 2 0 59 s
  match takeByte? 58 s with
  | none => return s
  | some s =>
    let (_, s) ← takeWithin? 2 0 59 s
    return afterFraction s

/-- Whether a text is an offset from universal time. Its hours go up to 24 and its minutes up to
60. -/
def isOffset (s : Bytes) : Bool :=
  match s with
  | [90] => true
  | sign :: rest =>
    (sign = 43 || sign = 45) &&
      (do
        let (_, s) ← takeWithin? 2 0 24 rest
        let s ← takeByte? 58 s
        let (_, s) ← takeWithin? 2 0 60 s
        return s) == some []
  | [] => false

/-- A byte of a moment with the letters and blanks that may stand for others replaced. -/
def plainByte (b : UInt8) : UInt8 := if b = 116 || b = 32 then 84 else if b = 122 then 90 else b

/-- Whether a text is a moment. -/
def isMoment (s : Bytes) : Bool :=
  let s := s.map plainByte
  match afterDate? s with
  | some [] => true
  | some (84 :: time) =>
    match afterTime? time with
    | some rest => rest.isEmpty || isOffset rest
    | none => false
  | some _ => false
  | none => afterTime? s == some []

end StackScript.Toml
