/-!
# Arithmetic that notices overflow

Integers of 64 bits wrap around. Here are their operations once more, without a result where the
exact one does not fit into 64 bits. A calculation that comes to a result with these operations has
therefore met no overflow. Each operation has one lemma, which takes the integers that its operands
stand for and gives the one that its result stands for, so a calculation is followed by a lemma for
each of its steps.
-/

namespace StackScript

/-- The integer can be written in 64 bits with a sign. -/
def FitsWord (n : Int) : Prop := -0x8000000000000000 ≤ n ∧ n < 0x8000000000000000

instance (n : Int) : Decidable (FitsWord n) := inferInstanceAs (Decidable (_ ∧ _))

/-- A word fits. -/
theorem FitsWord.of_toInt (a : Int64) : FitsWord a.toInt := ⟨a.le_toInt, a.toInt_lt⟩

namespace Checked

/-- The word for an integer. -/
def ofInt (n : Int) : Option Int64 := if FitsWord n then some (.ofInt n) else none

/-- The sum of two words. -/
def add (a b : Int64) : Option Int64 := ofInt (a.toInt + b.toInt)

/-- The difference of two words. -/
def sub (a b : Int64) : Option Int64 := ofInt (a.toInt - b.toInt)

/-- The product of two words. -/
def mul (a b : Int64) : Option Int64 := ofInt (a.toInt * b.toInt)

/-- The quotient of two words, rounded towards zero. -/
def div (a b : Int64) : Option Int64 :=
  if b = 0 then none else ofInt (a.toInt.tdiv b.toInt)

variable {a b : Int64} {m n : Int}

/-- A number that fits is taken. -/
theorem ofInt_eq (h : FitsWord n) : ofInt n = some (.ofInt n) ∧ (Int64.ofInt n).toInt = n :=
  ⟨if_pos h, Int64.toInt_ofInt_of_le h.1 h.2⟩

/-- A small natural number is taken. -/
theorem ofInt_natCast {k : Nat} (h : k < 0x8000000000000000) :
    ofInt (k : Int) = some (.ofNat k) := by
  rw [← Int64.ofInt_eq_ofNat]
  exact (ofInt_eq (by unfold FitsWord; omega)).1

/-- A sum that fits is given. -/
theorem add_eq (ha : a.toInt = m) (hb : b.toInt = n) (h : FitsWord (m + n)) :
    add a b = some (a + b) ∧ (a + b).toInt = m + n := by
  subst ha hb
  have hword : Int64.ofInt (a.toInt + b.toInt) = a + b := by simp
  rw [← hword]
  exact ofInt_eq h

/-- A difference that fits is given. -/
theorem sub_eq (ha : a.toInt = m) (hb : b.toInt = n) (h : FitsWord (m - n)) :
    sub a b = some (a - b) ∧ (a - b).toInt = m - n := by
  subst ha hb
  have hword : Int64.ofInt (a.toInt - b.toInt) = a - b := by simp
  rw [← hword]
  exact ofInt_eq h

/-- A product that fits is given. -/
theorem mul_eq (ha : a.toInt = m) (hb : b.toInt = n) (h : FitsWord (m * n)) :
    mul a b = some (a * b) ∧ (a * b).toInt = m * n := by
  subst ha hb
  have hword : Int64.ofInt (a.toInt * b.toInt) = a * b := by simp
  rw [← hword]
  exact ofInt_eq h

/-- A positive divisor makes nothing larger. -/
theorem div_eq (ha : a.toInt = m) (hb : b.toInt = n) (hn : 0 < n) :
    div a b = some (a / b) ∧ (a / b).toInt = m.tdiv n := by
  subst ha hb
  have hzero : b ≠ 0 := by
    rintro rfl
    exact absurd hn (by decide)
  have hfits : FitsWord (a.toInt.tdiv b.toInt) := by
    obtain ⟨hlow, hhigh⟩ := FitsWord.of_toInt a
    have hsize := Int.natAbs_tdiv_le_natAbs a.toInt b.toInt
    have hsign : a.toInt ≤ 0 → a.toInt.tdiv b.toInt ≤ 0 := by
      intro hneg
      have hopposite := Int.tdiv_nonneg (Int.neg_nonneg_of_nonpos hneg) (Int.le_of_lt hn)
      rw [Int.neg_tdiv] at hopposite
      omega
    unfold FitsWord
    omega
  have hword : Int64.ofInt (a.toInt.tdiv b.toInt) = a / b := by
    apply Int64.toInt_inj.mp
    rw [Int64.toInt_div, ← Int64.toInt_ofInt]
  rw [← hword]
  exact ⟨(if_neg hzero).trans (ofInt_eq hfits).1, (ofInt_eq hfits).2⟩

end Checked

/-! ## Words with and without a sign -/

/-- What a word stands for with a sign, by what it stands for without. -/
theorem toInt_eq_toNat_toUInt64 (a : Int64) :
    a.toInt = if a.toUInt64.toNat < 0x8000000000000000 then (a.toUInt64.toNat : Int)
      else a.toUInt64.toNat - 0x10000000000000000 := by
  have hcond : a.toInt = if 2 * a.toUInt64.toNat < 2 ^ 64 then (a.toUInt64.toNat : Int)
      else a.toUInt64.toNat - ((2 ^ 64 : Nat) : Int) := BitVec.toInt_eq_toNat_cond a.toBitVec
  rw [hcond]
  split <;> split <;> omega

/-- A word that stands for a number stands for the same without its sign. -/
theorem toNat_toUInt64 {a : Int64} {n : Nat} (h : a.toInt = n) : a.toUInt64.toNat = n := by
  have hsign := toInt_eq_toNat_toUInt64 a
  have hlt := a.toUInt64.toNat_lt
  split at hsign <;> omega

/-- A word without a sign that leaves its upper bit free stands for the same with a sign. -/
theorem toInt_toInt64 {v : UInt64} (h : v.toNat < 0x8000000000000000) :
    v.toInt64.toInt = v.toNat :=
  (toInt_eq_toNat_toUInt64 v.toInt64).trans (if_pos h)

/-- The distance of two words has no sign, and always fits. -/
theorem toNat_sub_toUInt64 {a b : Int64} (h : a.toInt ≤ b.toInt) :
    ((b - a).toUInt64.toNat : Int) = b.toInt - a.toInt := by
  have hsub : (b - a).toUInt64.toNat = (2 ^ 64 - a.toUInt64.toNat + b.toUInt64.toNat) % 2 ^ 64 :=
    BitVec.toNat_sub b.toBitVec a.toBitVec
  have ha := toInt_eq_toNat_toUInt64 a
  have hb := toInt_eq_toNat_toUInt64 b
  have hlta := a.toUInt64.toNat_lt
  have hltb := b.toUInt64.toNat_lt
  rw [hsub]
  split at ha <;> split at hb <;> omega

/-- A distance is added to a word as if it had a sign, which is right if the sum fits. -/
theorem toInt_add_toInt64 {a : Int64} {d : UInt64} (h : a.toInt + d.toNat < 0x8000000000000000) :
    (a + d.toInt64).toInt = a.toInt + d.toNat := by
  have hadd : (a + d.toInt64).toUInt64.toNat = (a.toUInt64.toNat + d.toNat) % 2 ^ 64 :=
    BitVec.toNat_add a.toBitVec d.toBitVec
  have ha := toInt_eq_toNat_toUInt64 a
  have hsum := toInt_eq_toNat_toUInt64 (a + d.toInt64)
  have hlta := a.toUInt64.toNat_lt
  have hltd := d.toNat_lt
  rw [hadd] at hsum
  split at ha <;> split at hsum <;> omega

end StackScript
