import StackScript.Text.Bytes

/-!
# Instants

A point in time is a count of seconds from the start of 1970 in UTC, which may be negative, and a
count of nanoseconds within the second. Files keep it as a count of ticks of 100 ns from the start
of the year 1, with a mark for UTC in bit 62.
-/

namespace StackScript

/-- A point in time. -/
structure Instant where
  /-- Seconds from the start of 1970. -/
  seconds : Int
  /-- Nanoseconds within the second. -/
  nanos : Nat
deriving DecidableEq

namespace Instant

/-- The start of the year 1: the time of a program that was never stamped. -/
def zero : Instant := ⟨-62135596800, 0⟩

/-- The instant a number of nanoseconds, of either sign, after a second. Seconds have 64 bits and
wrap around. -/
def ofUnix (seconds nanos : Int) : Instant :=
  ⟨(seconds + nanos.fdiv 1000000000).bmod 0x10000000000000000, (nanos.fmod 1000000000).toNat⟩

/-- Whole milliseconds from the start of 1970. -/
def millis (t : Instant) : Int := t.seconds * 1000 + (t.nanos / 1000000 : Nat)

/-- The ticks in a second. -/
def ticksPerSecond : Int := 10000000

/-- The ticks from the start of the year 1 to the start of 1970. -/
def epochTicks : Int := 621355968000000000

/-- Whole ticks from the start of the year 1. -/
def ticks (t : Instant) : Int := t.seconds * ticksPerSecond + (t.nanos / 100 : Nat) + epochTicks

/-- An instant as files keep it. The ticks are counted in 64-bit words. -/
def encode (t : Instant) : UInt64 :=
  let count :=
    Int64.ofInt t.seconds * .ofInt ticksPerSecond + .ofNat (t.nanos / 100) + .ofInt epochTicks
  count.toUInt64 ||| 0x4000000000000000

/-- The instant a number of ticks after the start of 1970. Words are divided towards zero, so before
1970 the rest may be negative: it is counted from the second before then. -/
def ofUnixTicks (count : Int64) : Instant :=
  let second := count / .ofInt ticksPerSecond
  let rest := count % .ofInt ticksPerSecond
  if rest < 0 then ofUnix (second - 1).toInt ((rest + .ofInt ticksPerSecond) * 100).toInt
  else ofUnix second.toInt (rest * 100).toInt

/-- The instant that a file keeps; the two upper bits are no part of the count. -/
def decode (v : UInt64) : Instant :=
  ofUnixTicks ((v &&& 0x3FFFFFFFFFFFFFFF).toInt64 - .ofInt epochTicks)

/-- Year, month and day of the day that lies `days` after the first of January 1970, in the
Gregorian calendar. Years are counted from March, so that a leap day is the last day of its year,
in spans of 400 years. -/
def civil (days : Int) : Int × Nat × Nat :=
  let z := days + 719468
  let era := z.fdiv 146097
  let doe := (z.fmod 146097).toNat
  let yoe := (doe - doe / 1460 + doe / 36524 - doe / 146096) / 365
  let doy := doe - (365 * yoe + yoe / 4 - yoe / 100)
  let mp := (5 * doy + 2) / 153
  let day := doy - (153 * mp + 2) / 5 + 1
  let month := if mp < 10 then mp + 3 else mp - 9
  (era * 400 + yoe + (if month ≤ 2 then 1 else 0), month, day)

/-- The second in which the calendar begins: the start of the first of March of the year
-292277022400. -/
def calendarStart : Int := -9223372028741760000

/-- The second that the calendar has for an instant. The calendar is 2^64 seconds long, and what
lies before its start is taken for what lies as far before its end. -/
def calendarSecond (t : Instant) : Int :=
  calendarStart + (t.seconds - calendarStart).fmod 0x10000000000000000

/-- An instant as date and time of day in UTC, to the second. -/
def text (t : Instant) : Bytes :=
  let (year, month, day) := civil (t.calendarSecond.fdiv 86400)
  let second := (t.calendarSecond.fmod 86400).toNat
  let two (n : Nat) : Bytes := padZeros 2 (decimal n)
  let sign : Bytes := if year < 0 then "-" else ""
  sign ++ padZeros 4 (decimal year.natAbs) ++ "-" ++ two month ++ "-" ++ two day ++ " " ++
    two (second / 3600) ++ ":" ++ two (second / 60 % 60) ++ ":" ++ two (second % 60) ++ " UTC"

end Instant

end StackScript
