import StackScript.Number.Binary64

/-!
# The shortest decimal form of a number

A finite number is written with the fewest decimal digits that still single it out among the
binary64 numbers, never with an exponent. The decimals that round to a number fill an interval
around it. The coarsest decimal grid with a point inside the interval gives the fewest digits;
of its points inside, the nearest to the number is taken, and the even one of two equally near.
-/

namespace StackScript.Shortest

/-- A positive rational number `num / den`. -/
structure Ratio where
  /-- The numerator. -/
  num : Nat
  /-- The denominator. -/
  den : Nat

/-- The rational `n * 2 ^ e`. -/
def Ratio.scaled (n : Nat) (e : Int) : Ratio :=
  if 0 ≤ e then ⟨n * Nat.pow 2 e.toNat, 1⟩ else ⟨n, Nat.pow 2 (-e).toNat⟩

/-- The rational `r / 10 ^ k`. -/
def Ratio.overTen (r : Ratio) (k : Int) : Ratio :=
  if 0 ≤ k then ⟨r.num, r.den * Nat.pow 10 k.toNat⟩ else ⟨r.num * Nat.pow 10 (-k).toNat, r.den⟩

/-- The greatest integer that is not greater. -/
def Ratio.floor (r : Ratio) : Nat := r.num / r.den

/-- The least integer that is not less. -/
def Ratio.ceil (r : Ratio) : Nat := (r.num + r.den - 1) / r.den

/-- The decimals that round to a number. -/
structure Interval where
  /-- The number itself. -/
  mid : Ratio
  /-- The lower end. -/
  lo : Ratio
  /-- The upper end. -/
  hi : Ratio
  /-- Whether the ends round to the number too. -/
  closed : Bool

/-- The interval around the number `m * 2 ^ e`. Its ends lie halfway to the neighbours; below a
power of two that is not the least exponent's the numbers lie twice as dense. -/
def Interval.around (m : Nat) (e : Int) : Interval where
  mid := .scaled (4 * m) (e - 2)
  lo := .scaled (if m = 0x10000000000000 ∧ e ≠ -1074 then 4 * m - 1 else 4 * m - 2) (e - 2)
  hi := .scaled (4 * m + 2) (e - 2)
  closed := m % 2 = 0

/-- The least multiple of `10 ^ k` inside the interval or above it, over `10 ^ k`. -/
def Interval.first (i : Interval) (k : Int) : Nat :=
  let r := i.lo.overTen k
  if i.closed then r.ceil else r.floor + 1

/-- The greatest multiple of `10 ^ k` inside the interval or below it, over `10 ^ k`. -/
def Interval.last (i : Interval) (k : Int) : Nat :=
  let r := i.hi.overTen k
  if i.closed then r.floor else r.ceil - 1

/-- The multiple of `10 ^ k` nearest to the number, over `10 ^ k`: the even one of two equally
near. -/
def Interval.nearest (i : Interval) (k : Int) : Nat :=
  let r := i.mid.overTen k
  let q := r.num / r.den
  let rest := 2 * (r.num % r.den)
  if rest < r.den || (rest == r.den && q % 2 == 0) then q else q + 1

/-- Digits `d` and exponent `k` of the shortest decimal `d * 10 ^ k` in the interval, looking at
`fuel` grids from `10 ^ k` on toward finer ones. -/
def search (i : Interval) : Nat → Int → Nat × Int
  | 0, k => (i.nearest k, k)
  | fuel + 1, k =>
    let a := i.first k
    let b := i.last k
    if a ≤ b then (max a (min b (i.nearest k)), k) else search i fuel (k - 1)

/-- Digits and exponent of the shortest decimal for `m * 2 ^ e`, where `m` is positive. The search
starts at a grid that is coarser than the number, and a grid seventeen digits finer always has a
point. -/
def decimalParts (m : Nat) (e : Int) : Nat × Int :=
  let magnitude := (((Nat.log2 m : Int) + 1 + e) * 30103).fdiv 100000
  search (.around m e) 24 (magnitude + 2)

/-- The decimal `d * 10 ^ k` without an exponent. -/
def positional (d : Nat) (k : Int) : Bytes :=
  if 0 ≤ k then decimal d ++ List.replicate k.toNat 48
  else
    let s := padZeros ((-k).toNat + 1) (decimal d)
    let whole := s.length - (-k).toNat
    s.take whole ++ "." ++ s.drop whole

end Shortest

/-- A number as text: the fewest digits that read back, without an exponent. -/
def Binary64.text (x : Binary64) : Bytes :=
  let sign : Bytes := if x.negative then "-" else ""
  if x.isNaN then "NaN"
  else if !x.isFinite then sign ++ "Infinity"
  else if x.significand = 0 then sign ++ "0"
  else
    let (d, k) := Shortest.decimalParts x.significand x.exponent
    sign ++ Shortest.positional d k

end StackScript
