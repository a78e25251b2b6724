import StackScript.Number.Binary64

/-!
# Random numbers

A permuted congruential generator with 128 bits of state and 64 bits a draw. Numbers below a bound
are drawn without bias: a draw that would favour some numbers is thrown away. Integers between two
others are made from the words of any source.
-/

namespace StackScript

/-- Where random words come from. -/
structure WordSource (γ : Type) where
  /-- Any word, and the source after it. -/
  word : γ → UInt64 × γ
  /-- A word below a bound, which is not zero, and the source after it. -/
  below : UInt64 → γ → UInt64 × γ

/-- An integer between two integers, both included, given in either order. The range is one less
than the number of integers in it, so that it can be written in 64 bits. -/
def WordSource.integerBetween (r : WordSource γ) (a b : Int64) (g : γ) : Int64 × γ :=
  let lo := if b < a then b else a
  let hi := if b < a then a else b
  let range := (hi - lo).toUInt64
  if range = 0xFFFFFFFFFFFFFFFF then
    let (d, g) := r.word g
    (d.toInt64, g)
  else
    let (d, g) := r.below (range + 1) g
    (lo + d.toInt64, g)

/-- The state of a generator, below `2 ^ 128`. -/
structure Generator where
  /-- The state. -/
  state : Nat
deriving DecidableEq

namespace Generator

/-- The number of values of a draw, `2 ^ 64`. -/
def draws : Nat := 0x10000000000000000

/-- The number of states, `2 ^ 128`. -/
def states : Nat := draws * draws

/-- The generator that a seed starts: both halves of its state are the seed. -/
def ofSeed (seed : UInt64) : Generator := ⟨seed.toNat * draws + seed.toNat⟩

/-- The factor of the congruential step. -/
def multiplier : Nat := 2549297995355413924 * draws + 4865540595714422341

/-- The summand of the congruential step. -/
def increment : Nat := 6364136223846793005 * draws + 1442695040888963407

/-- The state after one step. -/
def advance (g : Generator) : Generator := ⟨(g.state * multiplier + increment) % states⟩

/-- The number that a state gives: its upper half, stirred by shifts and by its lower half. -/
def output (g : Generator) : UInt64 :=
  let hi := UInt64.ofNat (g.state / draws)
  let lo := UInt64.ofNat g.state
  let a := (hi ^^^ (hi >>> 32)) * 0xDA942042E4DD58B5
  (a ^^^ (a >>> 48)) * (lo ||| 1)

/-- A 64-bit number and the generator after it. -/
def draw (g : Generator) : UInt64 × Generator := (g.advance.output, g.advance)

/-- A real number from zero up to but not including one, a multiple of `2 ^ -53`. -/
def unit (g : Generator) : Binary64 × Generator :=
  let (d, g) := g.draw
  (.ofFloat ((d % 9007199254740992).toFloat / 9007199254740992.0), g)

/-- Draws until the lower half of the product with `n` reaches the threshold, at most `fuel` times
more, and gives the upper half. -/
def rejectBelow (n threshold : Nat) : Nat → Generator → UInt64 × Generator
  | 0, g => (UInt64.ofNat (g.output.toNat * n / draws), g)
  | fuel + 1, g =>
    let product := g.output.toNat * n
    if product % draws < threshold then rejectBelow n threshold fuel g.advance
    else (UInt64.ofNat (product / draws), g)

/-- A number below `n`, which is positive. The fuel is the period of the generator. -/
def below (n : UInt64) (g : Generator) : UInt64 × Generator :=
  if n &&& (n - 1) = 0 then
    let (d, g) := g.draw
    (d &&& (n - 1), g)
  else rejectBelow n.toNat ((draws - n.toNat) % n.toNat) states g.advance

/-- The generator as a source of words. -/
def source : WordSource Generator := ⟨draw, below⟩

/-- An integer between two integers, both included, given in either order. -/
def integerBetween (a b : Int64) (g : Generator) : Int64 × Generator := source.integerBetween a b g

/-- A real number that lies the same way between two real numbers as a draw between zero and one. -/
def realBetween (a b : Binary64) (g : Generator) : Binary64 × Generator :=
  let (u, g) := g.unit
  (a.add (u.mul (b.sub a)), g)

end Generator

end StackScript
