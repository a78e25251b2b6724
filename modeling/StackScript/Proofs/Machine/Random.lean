import Mathlib.Data.Nat.ModEq
import Mathlib.Order.MinMax
import Mathlib.Tactic.WLOG
import StackScript.Machine.Host
import StackScript.Proofs.Number.Checked

/-!
# Random integers

An integer between two others is the smaller one and a distance, drawn below the number of integers
between them. That number is found by a subtraction that may overflow, and the sum may overflow as
well; both come out right. So a source whose words below a bound are all those below it gives the
integers of the range and no others (`WordSource.Covers.mem_range`,
`WordSource.Covers.exists_of_mem_range`). The generator is such a source
(`Generator.source_covers`): its step and its output can be undone, and no number below a bound is
left out when draws are rejected.
-/

namespace StackScript

/-! ## Sources of words -/

namespace WordSource

variable {γ : Type} {r : WordSource γ} {a b : Int64} {g : γ}

/-- A source that gives all words, and below a bound all words that are below it and no others. The
states in which it gives them have a property. -/
structure Covers (r : WordSource γ) (proper : γ → Prop) : Prop where
  word : ∀ d, ∃ g, proper g ∧ (r.word g).1 = d
  below_lt : ∀ n g, n ≠ 0 → (r.below n g).1 < n
  below : ∀ n d, d < n → ∃ g, proper g ∧ (r.below n g).1 = d

/-- The source that keeps a list of the bounds below which it is asked for words. -/
def asked (r : WordSource γ) : WordSource (γ × List UInt64) where
  word := fun s => ((r.word s.1).1, (r.word s.1).2, s.2)
  below := fun n s => ((r.below n s.1).1, (r.below n s.1).2, n :: s.2)

/-- Between integers in order, the distance is drawn below a bound that is one more than the
distance of the two, unless all integers lie between them. -/
theorem integerBetween_of_le (r : WordSource γ) (h : a.toInt ≤ b.toInt) (g : γ) :
    r.integerBetween a b g =
      if (b - a).toUInt64 = 0xFFFFFFFFFFFFFFFF then ((r.word g).1.toInt64, (r.word g).2)
      else (a + (r.below ((b - a).toUInt64 + 1) g).1.toInt64,
        (r.below ((b - a).toUInt64 + 1) g).2) := by
  have horder : ¬ b < a := fun hlt => Int.not_lt.mpr h (Int64.lt_iff_toInt_lt.mp hlt)
  unfold integerBetween
  rw [if_neg horder, if_neg horder]

/-- The order of bounds does not matter. -/
theorem integerBetween_comm (r : WordSource γ) (a b : Int64) (g : γ) :
    r.integerBetween a b g = r.integerBetween b a g := by
  unfold integerBetween
  by_cases hlt : b < a
  · have hgt : ¬ a < b := Int64.lt_asymm hlt
    rw [if_pos hlt, if_pos hlt, if_neg hgt, if_neg hgt]
  · by_cases hgt : a < b
    · rw [if_neg hlt, if_neg hlt, if_pos hgt, if_pos hgt]
    · obtain rfl : a = b := Int64.le_antisymm (Int64.not_lt.mp hlt) (Int64.not_lt.mp hgt)
      rfl

/-- The bound is the number of integers in the range, if these are not all that there are. -/
theorem toNat_bound (h : a.toInt ≤ b.toInt) (hall : (b - a).toUInt64 ≠ 0xFFFFFFFFFFFFFFFF) :
    (((b - a).toUInt64 + 1).toNat : Int) = b.toInt - a.toInt + 1 := by
  have hrange := toNat_sub_toUInt64 h
  have hlt := (b - a).toUInt64.toNat_lt
  have hne : (b - a).toUInt64.toNat ≠ 0xFFFFFFFFFFFFFFFF :=
    fun heq => hall (UInt64.toNat_inj.mp heq)
  have hsum : ((b - a).toUInt64 + 1).toNat = ((b - a).toUInt64.toNat + 1) % 2 ^ 64 :=
    UInt64.toNat_add _ _
  omega

/-- A range that is not full has a size. -/
theorem bound_ne_zero (h : a.toInt ≤ b.toInt) (hall : (b - a).toUInt64 ≠ 0xFFFFFFFFFFFFFFFF) :
    (b - a).toUInt64 + 1 ≠ 0 := by
  intro hzero
  have hbound := toNat_bound h hall
  have hnat : ((b - a).toUInt64 + 1).toNat = 0 := congrArg UInt64.toNat hzero
  omega

/-- A range as wide as a word holds all integers. -/
theorem all_between (h : a.toInt ≤ b.toInt) (hall : (b - a).toUInt64 = 0xFFFFFFFFFFFFFFFF)
    (n : Int64) : a.toInt ≤ n.toInt ∧ n.toInt ≤ b.toInt := by
  have hrange := toNat_sub_toUInt64 h
  have hwide : (b - a).toUInt64.toNat = 0xFFFFFFFFFFFFFFFF := congrArg UInt64.toNat hall
  have hb := FitsWord.of_toInt b
  have ha := FitsWord.of_toInt a
  have hn := FitsWord.of_toInt n
  unfold FitsWord at *
  omega

/-! ## The range -/

variable {proper : γ → Prop}

namespace Covers

/-- Only integers of the range are drawn. -/
theorem mem_range (hr : r.Covers proper) (a b : Int64) (g : γ) :
    min a.toInt b.toInt ≤ (r.integerBetween a b g).1.toInt ∧
      (r.integerBetween a b g).1.toInt ≤ max a.toInt b.toInt := by
  wlog h : a.toInt ≤ b.toInt generalizing a b
  · rw [integerBetween_comm, min_comm, max_comm]
    exact this b a (by omega)
  rw [integerBetween_of_le r h, min_eq_left h, max_eq_right h]
  split
  · rename_i hall
    exact all_between h hall _
  · rename_i hall
    have hbound := toNat_bound h hall
    have hlt := UInt64.lt_iff_toNat_lt.mp (hr.below_lt _ g (bound_ne_zero h hall))
    have hfits := b.toInt_lt
    generalize (r.below ((b - a).toUInt64 + 1) g).1 = d at hlt ⊢
    have hsum : (a + d.toInt64).toInt = a.toInt + d.toNat := toInt_add_toInt64 (by omega)
    rw [hsum]
    omega

/-- All integers of the range are drawn. -/
theorem exists_of_mem_range (hr : r.Covers proper) {n : Int64} (hlo : min a.toInt b.toInt ≤ n.toInt)
    (hhi : n.toInt ≤ max a.toInt b.toInt) : ∃ g, proper g ∧ (r.integerBetween a b g).1 = n := by
  wlog h : a.toInt ≤ b.toInt generalizing a b
  · simp only [r.integerBetween_comm a b]
    exact this (by rwa [min_comm]) (by rwa [max_comm]) (by omega)
  rw [min_eq_left h] at hlo
  rw [max_eq_right h] at hhi
  by_cases hall : (b - a).toUInt64 = 0xFFFFFFFFFFFFFFFF
  · obtain ⟨g, hg, hword⟩ := hr.word n.toUInt64
    refine ⟨g, hg, ?_⟩
    rw [integerBetween_of_le r h, if_pos hall, hword]
    rfl
  · -- The distance of the integer from the lower end is below the bound.
    have hbound := toNat_bound h hall
    have hdistance := toNat_sub_toUInt64 hlo
    have hlt : (n - a).toUInt64 < (b - a).toUInt64 + 1 := by
      rw [UInt64.lt_iff_toNat_lt]
      omega
    obtain ⟨g, hg, hbelow⟩ := hr.below _ _ hlt
    refine ⟨g, hg, ?_⟩
    rw [integerBetween_of_le r h, if_neg hall, hbelow]
    show a + (n - a) = n
    rw [Int64.add_comm, Int64.sub_add_cancel]

end Covers

/-- A source is never asked for a word below zero, and keeping the bounds does not change what is
drawn. -/
theorem asked_integerBetween (r : WordSource γ) (a b : Int64) (g : γ) :
    (r.asked.integerBetween a b (g, [])).1 = (r.integerBetween a b g).1 ∧
      ∀ n ∈ (r.asked.integerBetween a b (g, [])).2.2, n ≠ 0 := by
  wlog h : a.toInt ≤ b.toInt generalizing a b
  · rw [integerBetween_comm, r.integerBetween_comm a b]
    exact this b a (by omega)
  rw [integerBetween_of_le r.asked h, integerBetween_of_le r h]
  by_cases hall : (b - a).toUInt64 = 0xFFFFFFFFFFFFFFFF
  · rw [if_pos hall, if_pos hall]
    exact ⟨rfl, List.forall_mem_nil _⟩
  · rw [if_neg hall, if_neg hall]
    exact ⟨rfl, List.forall_mem_singleton.mpr (bound_ne_zero h hall)⟩

end WordSource

/-! ## The generator -/

namespace Generator

/-- The state is below the number of states. -/
def Proper (g : Generator) : Prop := g.state < states

/-- The number that undoes the factor of the congruential step. -/
def multiplierInverse : Nat := 566787436162029664 * draws + 11001107174925446285

/-- Every state is the one after another. -/
theorem exists_advance {g : Generator} (h : g.Proper) :
    ∃ g' : Generator, g'.Proper ∧ g'.advance = g := by
  have hinverse : multiplierInverse * multiplier ≡ 1 [MOD states] := by decide
  have hincrement : increment ≤ states := by decide
  -- The summand is taken off, and the factor undone.
  let back := (g.state + (states - increment)) * multiplierInverse
  refine ⟨⟨back % states⟩, Nat.mod_lt _ (by decide), ?_⟩
  have hstep : back % states * multiplier + increment ≡ g.state [MOD states] := calc
    back % states * multiplier + increment
      ≡ back * multiplier + increment [MOD states] :=
        ((Nat.mod_modEq back states).mul_right _).add_right _
    _ = (g.state + (states - increment)) * (multiplierInverse * multiplier) + increment := by
        rw [Nat.mul_assoc]
    _ ≡ (g.state + (states - increment)) * 1 + increment [MOD states] :=
        (hinverse.mul_left _).add_right _
    _ = g.state + states := by omega
    _ ≡ g.state [MOD states] := Nat.add_modEq_right
  unfold advance
  exact congrArg Generator.mk (Nat.mod_eq_of_modEq hstep h)

/-- A word with its upper bits stirred into the lower ones is stirred back in the same way. -/
theorem xorShift_xorShift (x k : UInt64) (hhalf : 32 ≤ k.toNat) (hlt : k.toNat < 64) :
    (x ^^^ (x >>> k)) ^^^ ((x ^^^ (x >>> k)) >>> k) = x := by
  apply UInt64.toNat_inj.mp
  apply Nat.eq_of_testBit_eq
  intro i
  have hhigh : x.toNat.testBit (k.toNat + (k.toNat + i)) = false := by
    apply Nat.testBit_lt_two_pow
    calc x.toNat < 2 ^ 64 := x.toNat_lt
      _ ≤ 2 ^ (k.toNat + (k.toNat + i)) := Nat.pow_le_pow_right (by decide) (by omega)
  simp only [UInt64.toNat_xor, UInt64.toNat_shiftRight, Nat.testBit_xor, Nat.testBit_shiftRight,
    Nat.mod_eq_of_lt hlt, hhigh]
  cases x.toNat.testBit i <;> cases x.toNat.testBit (k.toNat + i) <;> rfl

/-- Every word is the output of a state. -/
theorem exists_output (d : UInt64) : ∃ g : Generator, g.Proper ∧ g.output = d := by
  -- A state whose lower half is zero gives its upper half, stirred and multiplied.
  let a := d ^^^ (d >>> 48)
  let b := a * 0x8B838D0354EAD59D
  let hi := b ^^^ (b >>> 32)
  have hlt := hi.toNat_lt
  refine ⟨⟨hi.toNat * draws⟩, Nat.mul_lt_mul_of_pos_right hlt (by decide), ?_⟩
  have hupper : UInt64.ofNat (hi.toNat * draws / draws) = hi := by
    rw [Nat.mul_div_cancel _ (by decide : 0 < draws), UInt64.ofNat_toNat]
  have hlower : UInt64.ofNat (hi.toNat * draws) = 0 := by
    apply UInt64.toNat_inj.mp
    rw [UInt64.toNat_ofNat']
    exact Nat.mul_mod_left hi.toNat draws
  have hstir : hi ^^^ (hi >>> 32) = b := xorShift_xorShift b 32 (by decide) (by decide)
  have hfactor : b * 0xDA942042E4DD58B5 = a := by
    show a * 0x8B838D0354EAD59D * 0xDA942042E4DD58B5 = a
    rw [UInt64.mul_assoc]
    exact UInt64.mul_one a
  unfold output
  dsimp only
  rw [hupper, hlower, hstir, hfactor]
  show (a ^^^ (a >>> 48)) * 1 = d
  rw [UInt64.mul_one]
  exact xorShift_xorShift d 48 (by decide) (by decide)

/-- Every word is drawn. -/
theorem exists_draw (d : UInt64) : ∃ g : Generator, g.Proper ∧ (g.draw).1 = d := by
  obtain ⟨g, hg, hout⟩ := exists_output d
  obtain ⟨g', hg', hadvance⟩ := exists_advance hg
  refine ⟨g', hg', ?_⟩
  show g'.advance.output = d
  rw [hadvance, hout]

/-! ## Numbers below a bound -/

variable {n threshold : Nat} {g : Generator}

/-- The upper half of a product of a word with a number is below that number. -/
theorem upperHalf_lt (d : UInt64) {n : UInt64} (hn : n ≠ 0) :
    UInt64.ofNat (d.toNat * n.toNat / draws) < n := by
  have hpos : 0 < n.toNat := UInt64.pos_iff_ne_zero.mpr hn
  have hlt : d.toNat * n.toNat / draws < n.toNat := by
    apply Nat.div_lt_of_lt_mul
    exact Nat.mul_lt_mul_of_pos_right d.toNat_lt hpos
  rw [UInt64.lt_iff_toNat_lt, UInt64.toNat_ofNat_of_lt' (Nat.lt_trans hlt n.toNat_lt)]
  exact hlt

/-- What is drawn is below the bound. -/
theorem rejectBelow_lt {n : UInt64} (hn : n ≠ 0) (threshold fuel : Nat) (g : Generator) :
    (rejectBelow n.toNat threshold fuel g).1 < n := by
  -- Over the draws that may still be thrown away.
  induction fuel generalizing g with
  | zero =>
    rw [rejectBelow]
    exact upperHalf_lt g.output hn
  | succ fuel ih =>
    rw [rejectBelow]
    split
    · exact ih g.advance
    · exact upperHalf_lt g.output hn

/-- A draw that is not rejected is taken. -/
theorem rejectBelow_of_le (h : threshold ≤ g.output.toNat * n % draws) (fuel : Nat) :
    rejectBelow n threshold fuel g = (UInt64.ofNat (g.output.toNat * n / draws), g) := by
  cases fuel with
  | zero => rw [rejectBelow]
  | succ fuel => rw [rejectBelow, if_neg (Nat.not_lt.mpr h)]

/-- Each number below a bound is the upper half of a product that is not rejected. -/
theorem exists_product {k m : Nat} (hk : k < n) (hn : n ≤ m) :
    ∃ d, d < m ∧ d * n / m = k ∧ (m - n) % n ≤ d * n % m := by
  have hthreshold := Nat.mod_le (m - n) n
  generalize (m - n) % n = t at hthreshold ⊢
  -- The first multiple of `n` that reaches the threshold behind `k * m`.
  let d := (k * m + t + (n - 1)) / n
  have hdivmod : d * n + (k * m + t + (n - 1)) % n = k * m + t + (n - 1) :=
    Nat.div_add_mod' _ _
  have hrest := Nat.mod_lt (k * m + t + (n - 1)) (Nat.zero_lt_of_lt hk)
  have hreach : k * m + t ≤ d * n := by omega
  have hshort : d * n < k * m + m := by omega
  have hquotient : d * n / m = k := by
    refine Nat.div_eq_of_lt_le (by omega) ?_
    rw [Nat.succ_mul]
    exact hshort
  have hremainder := Nat.div_add_mod' (d * n) m
  rw [hquotient] at hremainder
  refine ⟨d, ?_, hquotient, by omega⟩
  have hwhole : d * n < m * n := calc
    d * n < k * m + m := hshort
    _ = (k + 1) * m := (Nat.succ_mul k m).symm
    _ ≤ n * m := Nat.mul_le_mul_right m hk
    _ = m * n := Nat.mul_comm n m
  exact Nat.lt_of_mul_lt_mul_right hwhole

section

variable {n d : UInt64}

/-- One less than a positive number. -/
theorem toNat_sub_one (hn : n ≠ 0) : (n - 1).toNat = n.toNat - 1 := by
  have hpos : 0 < n.toNat := UInt64.pos_iff_ne_zero.mpr hn
  exact UInt64.toNat_sub_of_le n 1 (UInt64.le_iff_toNat_le.mpr hpos)

/-- What is drawn is below the bound. -/
theorem below_lt (hn : n ≠ 0) (g : Generator) : (below n g).1 < n := by
  unfold below
  split
  · show g.draw.1 &&& (n - 1) < n
    have hpos : 0 < n.toNat := UInt64.pos_iff_ne_zero.mpr hn
    rw [UInt64.lt_iff_toNat_lt, UInt64.toNat_and, toNat_sub_one hn]
    have hle := Nat.and_le_right (n := g.draw.1.toNat) (m := n.toNat - 1)
    omega
  · exact rejectBelow_lt hn _ _ _

/-- The lower bits of a word below a power of two are all that it has. -/
theorem and_sub_one_of_lt (hpower : n &&& (n - 1) = 0) (h : d < n) : d &&& (n - 1) = d := by
  have hlt := UInt64.lt_iff_toNat_lt.mp h
  have hn : n ≠ 0 := by
    rintro rfl
    exact Nat.not_lt_zero _ hlt
  have hnat : n.toNat &&& (n.toNat - 1) = 0 := by
    rw [← toNat_sub_one hn, ← UInt64.toNat_and, hpower]
    rfl
  obtain ⟨k, hk⟩ := (Nat.and_sub_one_eq_zero_iff_isPowerOfTwo (by omega)).mp hnat
  apply UInt64.toNat_inj.mp
  rw [UInt64.toNat_and, toNat_sub_one hn, hk, Nat.and_two_pow_sub_one_eq_mod, ← hk]
  exact Nat.mod_eq_of_lt hlt

/-- Every number below a bound is drawn. -/
theorem exists_below (h : d < n) : ∃ g : Generator, g.Proper ∧ (below n g).1 = d := by
  unfold below
  by_cases hpower : n &&& (n - 1) = 0
  · obtain ⟨g, hg, hdraw⟩ := exists_draw d
    refine ⟨g, hg, ?_⟩
    rw [if_pos hpower]
    show g.draw.1 &&& (n - 1) = d
    rw [hdraw, and_sub_one_of_lt hpower h]
  · -- A draw whose product with the bound has the number as its upper half, and is not rejected.
    have hbound : n.toNat ≤ draws := Nat.le_of_lt n.toNat_lt
    obtain ⟨w, hw, hupper, hkept⟩ := exists_product (UInt64.lt_iff_toNat_lt.mp h) hbound
    obtain ⟨g, hg, hdraw⟩ := exists_draw (UInt64.ofNat w)
    have hout : g.advance.output.toNat = w := by
      have hword : g.advance.output = UInt64.ofNat w := hdraw
      rw [hword, UInt64.toNat_ofNat_of_lt' hw]
    refine ⟨g, hg, ?_⟩
    rw [if_neg hpower, rejectBelow_of_le (by rw [hout]; exact hkept), hout, hupper]
    exact UInt64.ofNat_toNat

end

/-- The generator gives all words, and all words below a bound. -/
theorem source_covers : source.Covers Proper where
  word := exists_draw
  below_lt := fun _ g hn => below_lt hn g
  below := fun _ _ h => exists_below h

end Generator

/-! ## What programs ask for -/

namespace Host

/-- Integers are drawn between integers. -/
theorem randomBetween_integer (a b : Value) (w : World) :
    randomBetween true (some a) (some b) w =
      .ok (some (.integer (Generator.integerBetween a.toInteger b.toInteger w.generator).1))
        { w with
          generator := (Generator.integerBetween a.toInteger b.toInteger w.generator).2 } :=
  rfl

/-- A random integer between two values lies between the integers that they stand for, whatever the
generator's state is; each of the integers between them comes with some state; and the generator is
never asked for a number below zero. -/
theorem randomBetween_fills_range (a b : Value) :
    (∀ w : World, ∃ n w', randomBetween true (some a) (some b) w = .ok (some (.integer n)) w' ∧
      min a.toInteger.toInt b.toInteger.toInt ≤ n.toInt ∧
      n.toInt ≤ max a.toInteger.toInt b.toInteger.toInt) ∧
    (∀ (w : World) (n : Int64), min a.toInteger.toInt b.toInteger.toInt ≤ n.toInt →
      n.toInt ≤ max a.toInteger.toInt b.toInteger.toInt →
      ∃ g : Generator, g.state < Generator.states ∧ ∃ w',
        randomBetween true (some a) (some b) { w with generator := g } =
          .ok (some (.integer n)) w') ∧
    ∀ g : Generator,
      let run := Generator.source.asked.integerBetween a.toInteger b.toInteger (g, [])
      run.1 = (Generator.integerBetween a.toInteger b.toInteger g).1 ∧ ∀ n ∈ run.2.2, n ≠ 0 := by
  refine ⟨fun w => ?_, fun w n hlo hhi => ?_, fun g => ?_⟩
  · exact ⟨_, _, randomBetween_integer a b w, Generator.source_covers.mem_range _ _ w.generator⟩
  · obtain ⟨g, hg, hn⟩ := Generator.source_covers.exists_of_mem_range hlo hhi
    have hdrawn : (Generator.integerBetween a.toInteger b.toInteger g).1 = n := hn
    have hrun := randomBetween_integer a b { w with generator := g }
    simp only [hdrawn] at hrun
    exact ⟨g, hg, _, hrun⟩
  · exact WordSource.asked_integerBetween _ _ _ g

/-- From the largest integer down to the smallest, and to the one above it: both distances are too
large for an integer with a sign. -/
theorem randomBetween_fills_range_widest :
    (∃ g : Generator, g.state < Generator.states ∧ ∃ w',
      randomBetween true (some (.integer 0x7FFFFFFFFFFFFFFF))
        (some (.integer (-0x8000000000000000))) { generator := g } =
          .ok (some (.integer (-0x8000000000000000))) w') ∧
    ∃ g : Generator, g.state < Generator.states ∧ ∃ w',
      randomBetween true (some (.integer 0x7FFFFFFFFFFFFFFF))
        (some (.integer (-0x7FFFFFFFFFFFFFFF))) { generator := g } =
          .ok (some (.integer (-0x7FFFFFFFFFFFFFFF))) w' :=
  ⟨(randomBetween_fills_range (.integer 0x7FFFFFFFFFFFFFFF) (.integer (-0x8000000000000000))).2.1
      {} _ (by decide) (by decide),
    (randomBetween_fills_range (.integer 0x7FFFFFFFFFFFFFFF) (.integer (-0x7FFFFFFFFFFFFFFF))).2.1
      {} _ (by decide) (by decide)⟩

end Host

end StackScript
