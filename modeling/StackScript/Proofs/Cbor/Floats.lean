import Mathlib.Algebra.Order.Ring.Nat
import Mathlib.Tactic.Ring
import StackScript.Cbor.Float

/-!
# Narrowing is exact

A number that has a form in a narrower format is widened again to the same bits. Both directions
are compared through the leading bit of the significand: the fields of a number in any format
follow from the weight of that bit and from the bits behind it, so `eq_pack64_of_lead` says once
what the fields of the number itself are, and the cases of `narrow?_spec` only have to reach them.
-/

namespace StackScript

/-- A power of two is positive. -/
theorem pow_two_pos (n : Nat) : 0 < Nat.pow 2 n := Nat.pow_pos (by decide)

/-- Bits appended to a number move its leading bit. -/
theorem log2_mul_pow {m : Nat} (hm : m ≠ 0) (d : Nat) :
    (m * Nat.pow 2 d).log2 = m.log2 + d := by
  have hpos := pow_two_pos d
  rw [Nat.log2_eq_iff (Nat.mul_ne_zero hm hpos.ne'), Nat.pow_add]
  refine ⟨Nat.mul_le_mul_right _ (Nat.log2_self_le hm), ?_⟩
  rw [Nat.add_right_comm, Nat.pow_add]
  exact Nat.mul_lt_mul_of_pos_right Nat.lt_log2_self hpos

namespace Binary64

/-- The sign bit as a number. -/
def signField (x : Binary64) : Nat := if x.negative then 1 else 0

/-- The sign is one bit. -/
theorem signField_lt (x : Binary64) : x.signField < 2 := by
  unfold signField
  split <;> decide

/-- The fraction is 52 bits. -/
theorem fraction_lt (x : Binary64) : x.fraction < 0x10000000000000 := Nat.mod_lt _ (by decide)

/-- A number is put together from its sign, its exponent field and its fraction. -/
theorem pack64_fields (x : Binary64) :
    FloatFormat.pack64 x.signField x.exponentField x.fraction = x := by
  have hlt : x.bits.toNat < 0x10000000000000000 := x.bits.toNat_lt
  have hsum : x.signField * 0x8000000000000000 + x.exponentField * 0x10000000000000 + x.fraction =
      x.bits.toNat := by
    unfold signField negative exponentField fraction
    split
    · rename_i h
      simp only [decide_eq_true_eq] at h
      omega
    · rename_i h
      simp only [decide_eq_true_eq] at h
      omega
  unfold FloatFormat.pack64
  rw [hsum, UInt64.ofNat_toNat]

/-- Only zeros have no significand. -/
theorem significand_eq_zero (x : Binary64) (h : x.significand = 0) :
    x.exponentField = 0 ∧ x.fraction = 0 := by
  unfold significand at h
  split at h
  · exact ⟨‹_›, h⟩
  · omega

/-- The fields of a number whose leading bit is that of a normal one, from the part `m` of its
significand in front of `k` zeros. -/
theorem eq_pack64_of_lead {x : Binary64} {m k : Nat} (hsig : x.significand = m * Nat.pow 2 k)
    (hm : m ≠ 0) (hlead : -1022 ≤ x.exponent + k + m.log2) :
    FloatFormat.pack64 x.signField (x.exponent + k + m.log2 + 1023).toNat
      ((m - Nat.pow 2 m.log2) * Nat.pow 2 (52 - m.log2)) = x := by
  have hlog : x.significand.log2 = m.log2 + k := by rw [hsig, log2_mul_pow hm]
  have hne : x.significand ≠ 0 := by
    rw [hsig]
    exact Nat.mul_ne_zero hm (pow_two_pos k).ne'
  have hfrac := x.fraction_lt
  -- A significand without the implicit bit has its leading bit too low.
  have hfield : x.exponentField ≠ 0 := by
    intro hzero
    have hexp : x.exponent = -1074 := if_pos hzero
    have hsub : x.significand = x.fraction := if_pos hzero
    have hlow : x.significand.log2 < 52 := (Nat.log2_lt hne).mpr (by omega)
    omega
  have hexp : x.exponent = (x.exponentField : Int) - 1075 := if_neg hfield
  have hnormal : x.significand = 0x10000000000000 + x.fraction := if_neg hfield
  have hlead52 : x.significand.log2 = 52 :=
    (Nat.log2_eq_iff hne).mpr (by constructor <;> omega)
  have hk : k = 52 - m.log2 := by omega
  have hfraction : (m - Nat.pow 2 m.log2) * Nat.pow 2 (52 - m.log2) = x.fraction := by
    have htop : Nat.pow 2 m.log2 * Nat.pow 2 k = 0x10000000000000 := by
      rw [Nat.pow_eq, Nat.pow_eq, ← Nat.pow_add, ← hlog, hlead52]
    rw [← hk, Nat.sub_mul, ← hsig, htop, hnormal, Nat.add_sub_cancel_left]
  have hbiased : (x.exponent + k + m.log2 + 1023).toNat = x.exponentField := by omega
  rw [hfraction, hbiased, pack64_fields]

end Binary64

namespace FloatFormat

/-- The power of two that is counted divides the number. -/
theorem twos_dvd (fuel n : Nat) : Nat.pow 2 (twos fuel n) ∣ n := by
  induction fuel generalizing n with
  | zero => exact Nat.one_dvd n
  | succ fuel ih =>
    unfold twos
    split
    · rename_i heven
      have hstep : Nat.pow 2 (twos fuel (n / 2)) * 2 ∣ n / 2 * 2 :=
        Nat.mul_dvd_mul_right (ih (n / 2)) 2
      rwa [Nat.div_mul_cancel (Nat.dvd_of_mod_eq_zero heven)] at hstep
    · exact Nat.one_dvd n

/-- The format has fields, and its numbers are binary64 numbers that are not subnormal. -/
structure Narrower (f : FloatFormat) : Prop where
  exponentBits_pos : 0 < f.exponentBits
  fractionBits_le : f.fractionBits ≤ 52
  minExponent_ge : -1022 ≤ f.minExponent

/-- Half precision is narrower than double precision. -/
theorem binary16_narrower : binary16.Narrower := ⟨by decide, by decide, by decide⟩

/-- Single precision is narrower than double precision. -/
theorem binary32_narrower : binary32.Narrower := ⟨by decide, by decide, by decide⟩

/-- Bits of a format by its three fields. -/
def pack (f : FloatFormat) (sign field fraction : Nat) : Nat :=
  sign * Nat.pow 2 (f.exponentBits + f.fractionBits) + field * Nat.pow 2 f.fractionBits + fraction

/-- The largest exponent field fits its bits. -/
theorem maxField_lt (f : FloatFormat) : f.maxField < Nat.pow 2 f.exponentBits := by
  have hpos := pow_two_pos f.exponentBits
  unfold maxField
  omega

/-- The greatest exponent field is one below twice the weight of its leading bit. -/
theorem Narrower.maxField_eq {f : FloatFormat} (hf : f.Narrower) :
    f.maxField = 2 * Nat.pow 2 (f.exponentBits - 1) - 1 := by
  have hsucc : f.exponentBits = f.exponentBits - 1 + 1 := by
    have := hf.exponentBits_pos
    omega
  unfold maxField
  rw [hsucc, Nat.add_sub_cancel]
  exact congrArg (· - 1) (Nat.mul_comm _ 2)

/-- The largest exponent field is positive. -/
theorem Narrower.maxField_pos {f : FloatFormat} (hf : f.Narrower) : 0 < f.maxField := by
  have hpos := pow_two_pos (f.exponentBits - 1)
  rw [hf.maxField_eq]
  omega

section Fields

variable {f : FloatFormat} {sign field fraction : Nat}

/-- The fields are packed one above the other. -/
theorem pack_eq (f : FloatFormat) (sign field fraction : Nat) :
    f.pack sign field fraction =
      Nat.pow 2 f.fractionBits * (Nat.pow 2 f.exponentBits * sign + field) + fraction := by
  unfold pack
  rw [Nat.pow_eq, Nat.pow_add, Nat.pow_eq, Nat.pow_eq]
  ring

/-- A pattern without an exponent is a sign and a fraction. -/
theorem pack_zero (f : FloatFormat) (sign fraction : Nat) :
    f.pack sign 0 fraction =
      sign * Nat.pow 2 (f.exponentBits + f.fractionBits) + fraction := by
  unfold pack
  rw [Nat.zero_mul, Nat.add_zero]

/-- Above the fraction are the exponent and the sign. -/
theorem pack_div (hfraction : fraction < Nat.pow 2 f.fractionBits) :
    f.pack sign field fraction / Nat.pow 2 f.fractionBits =
      Nat.pow 2 f.exponentBits * sign + field := by
  rw [pack_eq, Nat.mul_add_div (pow_two_pos _), Nat.div_eq_of_lt hfraction, Nat.add_zero]

/-- The fraction of a packed pattern. -/
theorem pack_fraction (hfraction : fraction < Nat.pow 2 f.fractionBits) :
    f.pack sign field fraction % Nat.pow 2 f.fractionBits = fraction := by
  rw [pack_eq, Nat.mul_add_mod, Nat.mod_eq_of_lt hfraction]

/-- The exponent field of a packed pattern. -/
theorem pack_field (hfield : field < Nat.pow 2 f.exponentBits)
    (hfraction : fraction < Nat.pow 2 f.fractionBits) :
    f.pack sign field fraction / Nat.pow 2 f.fractionBits % Nat.pow 2 f.exponentBits = field := by
  rw [pack_div hfraction, Nat.mul_add_mod, Nat.mod_eq_of_lt hfield]

/-- The sign of a packed pattern. -/
theorem pack_sign (hfield : field < Nat.pow 2 f.exponentBits)
    (hfraction : fraction < Nat.pow 2 f.fractionBits) :
    f.pack sign field fraction / Nat.pow 2 (f.exponentBits + f.fractionBits) = sign := by
  have hsplit : Nat.pow 2 (f.exponentBits + f.fractionBits) =
      Nat.pow 2 f.fractionBits * Nat.pow 2 f.exponentBits := by
    rw [Nat.add_comm]
    exact Nat.pow_add 2 f.fractionBits f.exponentBits
  rw [hsplit, ← Nat.div_div_eq_div_mul, pack_div hfraction,
    Nat.mul_add_div (pow_two_pos _), Nat.div_eq_of_lt hfield, Nat.add_zero]

/-- A packed pattern fits its format. -/
theorem pack_lt (hs : sign < 2) (hfield : field < Nat.pow 2 f.exponentBits)
    (hfraction : fraction < Nat.pow 2 f.fractionBits) :
    f.pack sign field fraction < Nat.pow 2 (f.exponentBits + f.fractionBits + 1) := by
  have hdiv : f.pack sign field fraction / Nat.pow 2 (f.exponentBits + f.fractionBits) < 2 := by
    rwa [pack_sign hfield hfraction]
  have hlt := (Nat.div_lt_iff_lt_mul (pow_two_pos _)).mp hdiv
  rwa [Nat.mul_comm] at hlt

/-- An infinity is widened to an infinity. -/
theorem widen_infinite (hs : sign < 2) :
    f.widen (f.pack sign f.maxField 0) = pack64 sign 2047 0 := by
  have hzero := pow_two_pos f.fractionBits
  unfold widen
  simp only [pack_fraction hzero, pack_field f.maxField_lt hzero, pack_sign f.maxField_lt hzero,
    Nat.mod_eq_of_lt hs, if_true]

/-- A zero is widened to a zero. -/
theorem widen_zero (hf : f.Narrower) (hs : sign < 2) :
    f.widen (f.pack sign 0 0) = pack64 sign 0 0 := by
  have hfield := pow_two_pos f.exponentBits
  have hzero := pow_two_pos f.fractionBits
  unfold widen
  simp only [pack_fraction hzero, pack_field hfield hzero, pack_sign hfield hzero,
    Nat.mod_eq_of_lt hs, if_neg hf.maxField_pos.ne, if_true]

/-- A subnormal number is widened to a normal one. -/
theorem widen_subnormal (hf : f.Narrower) (hs : sign < 2) (hne : fraction ≠ 0)
    (hfraction : fraction < Nat.pow 2 f.fractionBits) :
    f.widen (f.pack sign 0 fraction) =
      pack64 sign (f.minExponent + fraction.log2 + 1023).toNat
        ((fraction - Nat.pow 2 fraction.log2) * Nat.pow 2 (52 - fraction.log2)) := by
  have hfield := pow_two_pos f.exponentBits
  unfold widen
  simp only [pack_fraction hfraction, pack_field hfield hfraction, pack_sign hfield hfraction,
    Nat.mod_eq_of_lt hs, if_neg hf.maxField_pos.ne, if_neg hne, if_true]

/-- A normal number is widened to a normal one. -/
theorem widen_normal (hs : sign < 2) (hpos : 0 < field) (hfield : field < f.maxField)
    (hfraction : fraction < Nat.pow 2 f.fractionBits) :
    f.widen (f.pack sign field fraction) =
      pack64 sign (field + 1023 - (Nat.pow 2 (f.exponentBits - 1) - 1))
        (fraction * Nat.pow 2 (52 - f.fractionBits)) := by
  have hlt := Nat.lt_trans hfield f.maxField_lt
  unfold widen
  simp only [pack_fraction hfraction, pack_field hlt hfraction, pack_sign hlt hfraction,
    Nat.mod_eq_of_lt hs, if_neg hfield.ne, if_neg hpos.ne']

end Fields

section Forms

variable {f : FloatFormat} {x : Binary64} {m k : Nat}

/-- A number whose leading bit is too low for a normal number of the format. -/
theorem widen_low (hf : f.Narrower) (hsig : x.significand = m * Nat.pow 2 k) (hm : m ≠ 0)
    (hexp : f.minExponent ≤ x.exponent + k)
    (hlead : x.exponent + k + m.log2 < f.minExponent + f.fractionBits) :
    m * Nat.pow 2 (x.exponent + k - f.minExponent).toNat < Nat.pow 2 f.fractionBits ∧
      f.widen (f.pack x.signField 0 (m * Nat.pow 2 (x.exponent + k - f.minExponent).toNat)) =
        x := by
  generalize hd : (x.exponent + k - f.minExponent).toNat = d
  -- As a subnormal number it has the least exponent, and `m` is shifted up to it.
  have hlog := log2_mul_pow hm d
  have hne : m * Nat.pow 2 d ≠ 0 := Nat.mul_ne_zero hm (pow_two_pos d).ne'
  have hlt : m * Nat.pow 2 d < Nat.pow 2 f.fractionBits := by
    apply (Nat.log2_lt hne).mp
    omega
  have hlow := hf.minExponent_ge
  have hfraction := hf.fractionBits_le
  refine ⟨hlt, (widen_subnormal hf x.signField_lt hne hlt).trans ?_⟩
  have hfield : f.minExponent + ((m.log2 + d : Nat) : Int) = x.exponent + k + m.log2 := by omega
  have hbits : (m * Nat.pow 2 d - Nat.pow 2 (m.log2 + d)) * Nat.pow 2 (52 - (m.log2 + d)) =
      (m - Nat.pow 2 m.log2) * Nat.pow 2 (52 - m.log2) := by
    have hsplit : 52 - m.log2 = d + (52 - (m.log2 + d)) := by omega
    rw [hsplit]
    simp only [Nat.pow_eq, Nat.pow_add]
    rw [← Nat.sub_mul, Nat.mul_assoc]
  rw [hlog, hfield, hbits]
  exact Binary64.eq_pack64_of_lead hsig hm (by omega)

/-- A number whose leading bit is that of a normal number of the format. -/
theorem widen_high (hf : f.Narrower) (hsig : x.significand = m * Nat.pow 2 k) (hm : m ≠ 0)
    (htop : m.log2 ≤ f.fractionBits)
    (hlead : f.minExponent + f.fractionBits ≤ x.exponent + k + m.log2)
    (hless : x.exponent + k + m.log2 + f.maxField / 2 < f.maxField) :
    (x.exponent + k + m.log2 + f.maxField / 2).toNat < f.maxField ∧
      (m - Nat.pow 2 m.log2) * Nat.pow 2 (f.fractionBits - m.log2) < Nat.pow 2 f.fractionBits ∧
      f.widen (f.pack x.signField (x.exponent + k + m.log2 + f.maxField / 2).toNat
        ((m - Nat.pow 2 m.log2) * Nat.pow 2 (f.fractionBits - m.log2))) = x := by
  have hmin : f.minExponent = 2 - (Nat.pow 2 (f.exponentBits - 1) : Nat) - f.fractionBits := rfl
  have hmax := hf.maxField_eq
  have hlow := hf.minExponent_ge
  have hfraction := hf.fractionBits_le
  have hpos := pow_two_pos (f.exponentBits - 1)
  -- The leading bit of a normal number is not written, so only what is below it counts.
  have hbits : (m - Nat.pow 2 m.log2) * Nat.pow 2 (f.fractionBits - m.log2) <
      Nat.pow 2 f.fractionBits := by
    have hm2 : m < Nat.pow 2 m.log2 * 2 := Nat.lt_log2_self
    have hrest : m - Nat.pow 2 m.log2 < Nat.pow 2 m.log2 := by
      have := pow_two_pos m.log2
      omega
    calc (m - Nat.pow 2 m.log2) * Nat.pow 2 (f.fractionBits - m.log2)
        < Nat.pow 2 m.log2 * Nat.pow 2 (f.fractionBits - m.log2) :=
          Nat.mul_lt_mul_of_pos_right hrest (pow_two_pos _)
      _ = Nat.pow 2 f.fractionBits := by
          rw [Nat.pow_eq, Nat.pow_eq, ← Nat.pow_add, Nat.add_sub_cancel' htop, Nat.pow_eq]
  refine ⟨by omega, hbits, (widen_normal x.signField_lt (by omega) (by omega) hbits).trans ?_⟩
  have hfield : (x.exponent + k + m.log2 + f.maxField / 2).toNat + 1023 -
      (Nat.pow 2 (f.exponentBits - 1) - 1) = (x.exponent + k + m.log2 + 1023).toNat := by
    omega
  have hshift : Nat.pow 2 (f.fractionBits - m.log2) * Nat.pow 2 (52 - f.fractionBits) =
      Nat.pow 2 (52 - m.log2) := by
    rw [Nat.pow_eq, Nat.pow_eq, ← Nat.pow_add, Nat.pow_eq]
    congr 1
    omega
  rw [hfield, Nat.mul_assoc, hshift]
  exact Binary64.eq_pack64_of_lead hsig hm (by omega)

end Forms

/-- What stands for a number in a narrower format has the bits of the format and is widened to the
number. -/
theorem narrow?_spec {f : FloatFormat} (hf : f.Narrower) {x : Binary64} (hx : x.isNaN = false)
    {bits : Nat} (h : f.narrow? x = some bits) :
    bits < Nat.pow 2 (f.exponentBits + f.fractionBits + 1) ∧ f.widen bits = x := by
  have hs := x.signField_lt
  have hsign : (if x.negative then Nat.pow 2 (f.exponentBits + f.fractionBits) else 0) =
      x.signField * Nat.pow 2 (f.exponentBits + f.fractionBits) := by
    unfold Binary64.signField
    split <;> simp
  have hzeroFraction := pow_two_pos f.fractionBits
  unfold narrow? at h
  rw [hsign] at h
  split at h
  · -- An infinity.
    rename_i hinf
    have hfield : x.exponentField = 2047 := by simpa [Binary64.isFinite] using hinf
    have hfraction : x.fraction = 0 := by simpa [Binary64.isNaN, hfield] using hx
    obtain rfl := Option.some.inj h
    refine ⟨pack_lt hs f.maxField_lt hzeroFraction, (widen_infinite hs).trans ?_⟩
    rw [← hfield, ← hfraction, Binary64.pack64_fields]
  split at h
  · -- A zero.
    rename_i hsig
    obtain ⟨hfield, hfraction⟩ := x.significand_eq_zero hsig
    rw [← Nat.add_zero (_ * _), ← pack_zero] at h
    obtain rfl := Option.some.inj h
    refine ⟨pack_lt hs (pow_two_pos _) hzeroFraction, (widen_zero hf hs).trans ?_⟩
    have hfields := x.pack64_fields
    rwa [hfield, hfraction] at hfields
  -- A number that ends in `k` zeros behind `m`.
  rename_i hsig
  have hparts := (Nat.div_mul_cancel (twos_dvd 53 x.significand)).symm
  simp only at h
  generalize twos 53 x.significand = k at h hparts
  generalize x.significand / Nat.pow 2 k = m at h hparts
  have hm : m ≠ 0 := by
    rintro rfl
    exact hsig (hparts.trans (Nat.zero_mul _))
  split at h
  · cases h
  rename_i hexact
  simp only [Bool.or_eq_true, decide_eq_true_eq, not_or, Nat.not_lt, Int.not_lt] at hexact
  split at h
  · cases h
  rename_i hless
  split at h
  · rename_i hlead
    obtain ⟨hlt, hwiden⟩ := widen_low hf hparts hm hexact.2 hlead
    rw [← pack_zero] at h
    obtain rfl := Option.some.inj h
    exact ⟨pack_lt hs (pow_two_pos _) hlt, hwiden⟩
  · rename_i hlead
    obtain ⟨hfield, hlt, hwiden⟩ :=
      widen_high hf hparts hm hexact.1 (Int.not_lt.mp hlead) (Int.not_le.mp hless)
    obtain rfl := Option.some.inj h
    exact ⟨pack_lt hs (Nat.lt_trans hfield f.maxField_lt) hlt, hwiden⟩

end FloatFormat

end StackScript
