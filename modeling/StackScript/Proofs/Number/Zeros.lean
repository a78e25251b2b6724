import Mathlib
import StackScript.Proofs.Number.Equality

/-!
# The bits of equal numbers

Packing what was unpacked changes no bits but those of a NaN. So numbers that are equal have the
same bits, but for the two zeros, which differ in their sign.
-/

namespace StackScript.Binary64

open Float.Model
open Float.Model.UnpackedFloat

/-- What is unpacked as zero has zero fields. -/
theorem unpack_eq_zero {b : BitVec Format.binary64.numBits} {s : Sign}
    (h : UnpackedFloat.unpack Format.binary64 b = .zero s) :
    unpackExponent b = 0#11 ∧ unpackMantissa b = 0#52 := by
  unfold UnpackedFloat.unpack at h
  simp only at h
  split at h
  · split at h <;> cases h
  split at h
  · split at h
    · exact ⟨‹_›, ‹_›⟩
    · cases h
  · cases h

/-- What a number is unpacked to gives its bits back, unless it is a NaN. -/
theorem unpack_cases (x : Binary64) :
    x.toFloat.toModel.unpack = .notANumber ∨
      x.toFloat.toModel.unpack = UnpackedFloat.unpack Format.binary64 x.bits.toBitVec ∧
        UnpackedFloat.pack Format.binary64 x.toFloat.toModel.unpack = x.bits.toBitVec := by
  -- The number is unpacked from what packing makes of the bits.
  have hbits : x.toFloat.toModel.unpack = UnpackedFloat.unpack Format.binary64
      (UnpackedFloat.pack Format.binary64
        (UnpackedFloat.unpack Format.binary64 x.bits.toBitVec)) := rfl
  have hpack := @pack_unpack Format.binary64 x.bits.toBitVec (by decide)
  split at hpack
  · left
    rw [hbits, hpack]
    rfl
  · right
    rw [hbits, hpack]
    exact ⟨rfl, hpack⟩

/-- Whether a number is one of the two zeros. -/
def isZero (x : Binary64) : Bool := x.exponentField == 0 && x.fraction == 0

/-- A number that is unpacked as zero is one. -/
theorem isZero_of_unpack {x : Binary64} {s : Sign} (h : x.toFloat.toModel.unpack = .zero s) :
    x.isZero = true := by
  rcases unpack_cases x with hnan | ⟨hbits, -⟩
  · rw [h] at hnan
    cases hnan
  · obtain ⟨hexp, hmant⟩ := unpack_eq_zero (hbits.symm.trans h)
    have hexp' : (BitVec.extractLsb 62 52 x.bits.toBitVec).toNat = 0 := congrArg BitVec.toNat hexp
    have hmant' : (BitVec.extractLsb 51 0 x.bits.toBitVec).toNat = 0 :=
      congrArg BitVec.toNat hmant
    rw [BitVec.extractLsb_toNat, Nat.shiftRight_eq_div_pow] at hexp' hmant'
    rw [Nat.pow_zero, Nat.div_one] at hmant'
    unfold isZero
    rw [show x.exponentField = 0 from hexp', show x.fraction = 0 from hmant']
    rfl

/-- Numbers that are equal have the same bits, unless both are zeros. -/
theorem eq_cases {x y : Binary64} (h : x.eq y = true) :
    x = y ∨ x.isZero = true ∧ y.isZero = true := by
  have hcompare := eq_iff_compare.mp h
  rcases eq_of_compare hcompare with hsame | ⟨s, s', hx, hy⟩
  · left
    rcases unpack_cases x with hnan | ⟨-, hx⟩
    · rw [hnan] at hcompare
      cases hcompare
    · rcases unpack_cases y with hnan | ⟨-, hy⟩
      · rw [hsame, hnan] at hcompare
        cases hcompare
      · have hbits : x.bits.toBitVec = y.bits.toBitVec := by rw [← hx, ← hy, hsame]
        obtain ⟨a⟩ := x
        obtain ⟨b⟩ := y
        exact congrArg Binary64.mk (UInt64.toBitVec_inj.mp hbits)
  · exact .inr ⟨isZero_of_unpack hx, isZero_of_unpack hy⟩

/-- The numbers that equal zero are those whose exponent field and fraction are zero. -/
theorem fields_of_eq_zero {x : Binary64} (h : x.eq zero = true) :
    x.exponentField = 0 ∧ x.fraction = 0 := by
  have hzero : x.isZero = true := by
    rcases eq_cases h with rfl | ⟨hx, -⟩
    · rfl
    · exact hx
  simpa [isZero] using hzero

end StackScript.Binary64
