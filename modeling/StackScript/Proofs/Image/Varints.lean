import Mathlib.Order.Bounds.Basic
import StackScript.Proofs.Image.Rewriting

/-!
# Numbers of varying length, case by case

A number is written in the least number of groups that holds it. Bytes are read as a number if and
only if one of the first ten has a clear top bit and, where the tenth is the first such byte, it
adds one bit at most; the number is then the sum of the groups up to that byte, and nothing behind
it counts. Bytes that end before such a byte are too short, and all others are corrupt. The three
cases come from what one byte does to a reader that has already read some, by induction on the bytes
that are left.
-/

namespace StackScript.Varint

variable {front s : Bytes} {i : Nat}

/-! ## Lengths -/

/-- The length of a number is the least number of groups that holds it. -/
theorem isLeast_length_encodeNat (n : Nat) :
    IsLeast {k | 1 ≤ k ∧ n < 2 ^ (7 * k)} (encodeNat n).length := by
  have hiff : ∀ k, 1 ≤ k → ((encodeNat n).length ≤ k ↔ n < 2 ^ (7 * k)) := by
    intro k hk
    have hsucc := length_encodeNat_le_succ_iff n (k - 1)
    rwa [Nat.sub_add_cancel hk] at hsucc
  have hpos := length_encodeNat_pos n
  constructor
  · exact ⟨hpos, (hiff _ hpos).mp (Nat.le_refl _)⟩
  · rintro k ⟨hk, hlt⟩
    exact (hiff k hk).mpr hlt

/-! ## Values -/

/-- Groups behind others weigh as much more as there are groups in front. -/
theorem value_append (s t : Bytes) : value (s ++ t) = value s + 2 ^ (7 * s.length) * value t := by
  induction s with
  | nil => simp [value]
  | cons b s ih =>
    have hpow : 2 ^ (7 * (s.length + 1)) = 128 * 2 ^ (7 * s.length) := by ring
    rw [List.cons_append, value, value, ih, List.length_cons, hpow]
    ring

/-- A number of `k` groups has `7 * k` bits. -/
theorem value_lt (s : Bytes) : value s < 2 ^ (7 * s.length) := by
  induction s with
  | nil => exact Nat.one_pos
  | cons b s ih =>
    have hpow : 2 ^ (7 * (s.length + 1)) = 128 * 2 ^ (7 * s.length) := by ring
    have hgroup : b.toNat % 128 < 128 := Nat.mod_lt _ (by decide)
    rw [value, List.length_cons, hpow]
    omega

/-- The groups of a number, each with its weight. -/
def groups (s : Bytes) : List Nat := s.mapIdx fun i b => b.toNat % 128 * 2 ^ (7 * i)

/-- A number is the sum of its groups. -/
theorem sum_groups (s : Bytes) : (groups s).sum = value s := by
  -- The weights are counted from `k` on, since the induction takes groups off the front.
  have hfrom : ∀ k, (s.mapIdx fun i b => b.toNat % 128 * 2 ^ (7 * (i + k))).sum =
      2 ^ (7 * k) * value s := by
    induction s with
    | nil => simp [value]
    | cons b s ih =>
      intro k
      have hnext : ∀ i, i + 1 + k = i + (k + 1) := fun i => by omega
      rw [List.mapIdx_cons, List.sum_cons, value]
      simp only [hnext, ih, Nat.zero_add]
      ring
  have hzero := hfrom 0
  simpa [groups] using hzero

/-! ## The last byte -/

/-- The first byte with a clear top bit stands behind `i` others, and the number that it ends has 64
bits: it has ten bytes at most, of which the tenth adds one bit. -/
structure Ends (s : Bytes) (i : Nat) : Prop where
  first : s.findIdx? (· < 0x80) = some i
  lt : i < maxLength
  tenth : i + 1 = maxLength → ∀ b ∈ s[i]?, b ≤ 1

/-- The last byte of a number is the first with a clear top bit, whatever follows. -/
theorem Closed.findIdx?_append (h : Closed front) (rest : Bytes) :
    (front ++ rest).findIdx? (· < 0x80) = some (front.length - 1) := by
  induction front with
  | nil => exact h.elim
  | cons b front ih =>
    rw [List.cons_append, List.findIdx?_cons]
    rcases closed_cons h with ⟨rfl, hlast⟩ | ⟨hmore, hclosed⟩
    · simp [hlast]
    · have hpos : front.length ≠ 0 := by
        intro hzero
        rw [List.length_eq_zero_iff.mp hzero] at hclosed
        exact hclosed
      have hlength : front.length - 1 + 1 = front.length := by omega
      simp [UInt8.not_lt.mpr hmore, ih hclosed, hlength]

/-- The bytes up to the first with a clear top bit are a number. -/
theorem closed_take_of_findIdx?_eq_some (h : s.findIdx? (· < 0x80) = some i) :
    Closed (s.take (i + 1)) := by
  induction s generalizing i with
  | nil => cases h
  | cons b s ih =>
    rw [List.findIdx?_cons] at h
    by_cases hlast : b < 0x80
    · obtain rfl : 0 = i := by simpa [hlast] using h
      exact hlast
    · obtain ⟨j, hj, rfl⟩ : ∃ j, s.findIdx? (· < 0x80) = some j ∧ j + 1 = i := by
        simpa [hlast] using h
      have hclosed := ih hj
      have htake : (b :: s).take (j + 1 + 1) = b :: s.take (j + 1) := rfl
      rw [htake]
      cases hrest : s.take (j + 1) with
      | nil =>
        rw [hrest] at hclosed
        exact hclosed.elim
      | cons c rest =>
        rw [hrest] at hclosed
        exact ⟨UInt8.not_lt.mp hlast, hclosed⟩

/-- The first byte with a clear top bit is among the bytes. -/
theorem exists_getElem?_of_findIdx?_eq_some (h : s.findIdx? (· < 0x80) = some i) :
    ∃ b, s[i]? = some b ∧ b.toNat < 128 := by
  obtain ⟨hi, hlast⟩ := List.findIdx?_eq_some_iff_getElem.mp h
  have hclear : s[i] < 0x80 := of_decide_eq_true hlast.1
  exact ⟨s[i], List.getElem?_eq_getElem hi, UInt8.lt_iff_toNat_lt.mp hclear⟩

/-- One more group adds its weight, and those in front of it are less than that. -/
theorem value_take_succ {b : UInt8} (h : s[i]? = some b) :
    value (s.take (i + 1)) = value (s.take i) + 2 ^ (7 * i) * (b.toNat % 128) ∧
      value (s.take i) < 2 ^ (7 * i) := by
  have hi : i < s.length := (List.getElem?_eq_some_iff.mp h).1
  have hlength : (s.take i).length = i := by
    rw [List.length_take]
    omega
  have hone : value [b] = b.toNat % 128 := rfl
  have hlt := value_lt (s.take i)
  rw [hlength] at hlt
  rw [List.take_add_one, h, Option.toList_some, value_append, hlength, hone]
  exact ⟨rfl, hlt⟩

/-- The number up to the last byte has 64 bits. -/
theorem Ends.value_lt (h : Ends s i) : value (s.take (i + 1)) < UInt64.size := by
  obtain ⟨b, hb, hlast⟩ := exists_getElem?_of_findIdx?_eq_some h.first
  -- Nine groups have 63 bits, and a tenth adds the last one.
  by_cases htenth : i + 1 = maxLength
  · obtain rfl : i = 9 := Nat.succ_injective htenth
    have hone : b.toNat ≤ 1 := UInt8.le_iff_toNat_le.mp (h.tenth htenth b hb)
    obtain ⟨hvalue, hfront⟩ := value_take_succ hb
    rw [hvalue]
    unfold UInt64.size
    omega
  · have hlt := h.lt
    have hfew := Varint.value_lt (s.take (i + 1))
    have hpow : 2 ^ (7 * (s.take (i + 1)).length) ≤ 2 ^ 63 := by
      refine Nat.pow_le_pow_right (by decide) ?_
      rw [List.length_take]
      unfold maxLength at htenth hlt
      omega
    exact Nat.lt_of_lt_of_le hfew (Nat.le_trans hpow (by decide))

/-- A form ends at its last byte, whatever follows. -/
theorem Form.ends {v : UInt64} (h : Form v front) (rest : Bytes) :
    Ends (front ++ rest) (front.length - 1) ∧ front.length - 1 + 1 = front.length := by
  have hfirst := h.closed.findIdx?_append rest
  have hlength := h.length
  have hpos : front.length ≠ 0 := by
    intro hzero
    have hclosed := h.closed
    rw [List.length_eq_zero_iff.mp hzero] at hclosed
    exact hclosed
  have hsucc : front.length - 1 + 1 = front.length := by omega
  refine ⟨⟨hfirst, by omega, ?_⟩, hsucc⟩
  intro htenth b hb
  obtain ⟨c, hc, hlast⟩ := exists_getElem?_of_findIdx?_eq_some hfirst
  obtain rfl : b = c := Option.some.inj (hb.symm.trans hc)
  -- The tenth group weighs `2 ^ 63`, so two of it are too much.
  obtain ⟨hvalue, -⟩ := value_take_succ hc
  have hnine : front.length - 1 = 9 := Nat.succ_injective htenth
  have hv := v.toNat_lt
  rw [hsucc, List.take_left, h.value, hnine] at hvalue
  rw [UInt8.le_iff_toNat_le]
  change b.toNat ≤ 1
  omega

/-! ## Verdicts -/

/-- What is read: the groups up to the last byte, and what stands behind it. -/
theorem decode_eq_ok_iff (s : Bytes) (v : UInt64) (rest : Bytes) :
    decode s = .ok (v, rest) ↔
      ∃ i, Ends s i ∧ rest = s.drop (i + 1) ∧ v.toNat = value (s.take (i + 1)) := by
  rw [decode_takes s v rest]
  constructor
  · rintro ⟨front, rfl, hform⟩
    obtain ⟨hends, hsucc⟩ := hform.ends rest
    refine ⟨_, hends, ?_, ?_⟩
    · rw [hsucc, List.drop_left]
    · rw [hsucc, List.take_left, hform.value]
  · rintro ⟨i, hends, rfl, hvalue⟩
    refine ⟨s.take (i + 1), (List.take_append_drop _ s).symm, ?_⟩
    have hlt := hends.lt
    exact
      { closed := closed_take_of_findIdx?_eq_some hends.first
        length := by
          rw [List.length_take]
          omega
        value := hvalue.symm }

/-- Bytes are read as a number if and only if a number ends in them. -/
theorem exists_decode_eq_ok_iff (s : Bytes) : (∃ r, decode s = .ok r) ↔ ∃ i, Ends s i := by
  constructor
  · rintro ⟨r, hr⟩
    obtain ⟨i, hends, -⟩ := (decode_eq_ok_iff s r.1 r.2).mp hr
    exact ⟨i, hends⟩
  · rintro ⟨i, hends⟩
    have hword : (UInt64.ofNat (value (s.take (i + 1)))).toNat = value (s.take (i + 1)) :=
      UInt64.toNat_ofNat_of_lt' hends.value_lt
    exact ⟨_, (decode_eq_ok_iff s _ _).mpr ⟨i, hends, rfl, hword⟩⟩

/-- Behind `i` bytes a number is cut off if and only if the rest has no byte that could end it, nor
one too many. -/
theorem decodeFrom_eq_truncated_iff (hi : i ≤ maxLength) (acc : Nat) (s : Bytes) :
    decodeFrom i acc s = .error (.truncated .item) ↔
      i + s.length ≤ maxLength ∧ ∀ b ∈ s, 0x80 ≤ b := by
  induction s generalizing i acc with
  | nil => simpa [decodeFrom] using hi
  | cons b s ih =>
    rw [decodeFrom, List.length_cons, List.forall_mem_cons]
    by_cases hten : i = maxLength
    · -- An eleventh byte is one too many, whatever it is.
      rw [if_pos hten]
      constructor
      · intro h
        cases h
      · rintro ⟨hlength, -⟩
        omega
    by_cases hlast : b < 0x80
    · have hnot : ¬ 0x80 ≤ b := UInt8.not_le.mpr hlast
      rw [if_neg hten, if_pos hlast]
      constructor
      · intro h
        split at h <;> cases h
      · rintro ⟨-, hmore, -⟩
        exact absurd hmore hnot
    · rw [if_neg hten, if_neg hlast, ih (by omega)]
      have hmore : 0x80 ≤ b := UInt8.not_lt.mp hlast
      have hlength : i + 1 + s.length = i + (s.length + 1) := by omega
      rw [hlength, and_iff_right hmore]

/-- Reading fails in two ways only. -/
theorem decodeFrom_error {acc : Nat} {e : ImageError} (h : decodeFrom i acc s = .error e) :
    e = .truncated .item ∨ e = .corrupt .varint := by
  induction s generalizing i acc with
  | nil =>
    cases h
    exact .inl rfl
  | cons b s ih =>
    rw [decodeFrom] at h
    split at h
    · cases h
      exact .inr rfl
    split at h
    · split at h
      · cases h
        exact .inr rfl
      · cases h
    · exact ih h

/-- Bytes in which no number ends and that are not cut off are corrupt. -/
theorem decode_eq_corrupt_iff (s : Bytes) :
    decode s = .error (.corrupt .varint) ↔
      (¬ ∃ i, Ends s i) ∧ ¬ (s.length ≤ maxLength ∧ ∀ b ∈ s, 0x80 ≤ b) := by
  have htruncated := decodeFrom_eq_truncated_iff (Nat.zero_le maxLength) 0 s
  rw [Nat.zero_add] at htruncated
  rw [← exists_decode_eq_ok_iff, ← htruncated]
  change _ ↔ _ ∧ ¬ decode s = _
  cases hread : decode s with
  | ok r =>
    constructor
    · intro h
      cases h
    · rintro ⟨hnone, -⟩
      exact absurd ⟨r, rfl⟩ hnone
  | error e =>
    constructor
    · intro h
      obtain rfl := Except.error.inj h
      constructor
      · rintro ⟨r, hr⟩
        cases hr
      · intro h'
        cases h'
    · rintro ⟨-, hnot⟩
      rcases decodeFrom_error hread with rfl | rfl
      · exact absurd rfl hnot
      · rfl

/-- The whole of writing and reading numbers of varying length: what is written is the shortest form
and is read back from the front of anything; of all other bytes it is said which are read, as which
number and how far, and which are too short or corrupt. -/
theorem decode_verdict :
    (∀ (v : UInt64) (rest : Bytes), decode (encode v ++ rest) = .ok (v, rest) ∧
      IsLeast {k | 1 ≤ k ∧ v.toNat < 2 ^ (7 * k)} (encode v).length) ∧
    ∀ s : Bytes,
      ((∃ r, decode s = .ok r) ↔ ∃ i, Ends s i) ∧
      (∀ v rest, decode s = .ok (v, rest) → ∃ i, Ends s i ∧ rest = s.drop (i + 1) ∧
        v.toNat = (groups (s.take (i + 1))).sum ∧ (encode v).length ≤ i + 1) ∧
      (decode s = .error (.truncated .item) ↔ s.length ≤ 10 ∧ ∀ b ∈ s, 0x80 ≤ b) ∧
      (decode s = .error (.corrupt .varint) ↔
        (¬ ∃ i, Ends s i) ∧ ¬ (s.length ≤ 10 ∧ ∀ b ∈ s, 0x80 ≤ b)) := by
  refine ⟨fun v rest => ⟨decode_encode v rest, isLeast_length_encodeNat _⟩, fun s => ?_⟩
  refine ⟨exists_decode_eq_ok_iff s, ?_, ?_, decode_eq_corrupt_iff s⟩
  · intro v rest hread
    obtain ⟨i, hends, hrest, hvalue⟩ := (decode_eq_ok_iff s v rest).mp hread
    have hle := (closed_take_of_findIdx?_eq_some hends.first).length_encodeNat_le
    have htake : (s.take (i + 1)).length ≤ i + 1 := List.length_take_le _ _
    rw [← hvalue] at hle
    exact ⟨i, hends, hrest, hvalue.trans (sum_groups _).symm, Nat.le_trans hle htake⟩
  · have htruncated := decodeFrom_eq_truncated_iff (Nat.zero_le maxLength) 0 s
    rwa [Nat.zero_add] at htruncated

/-- The ten bytes of the largest number, and one behind them. -/
def largestAndMore : Bytes := List.replicate 9 0xff ++ [1, 5]

/-- The largest number is read up to its tenth byte. -/
theorem decode_verdict_largest :
    decode largestAndMore = .ok (0xffffffffffffffff, [5]) ∧
      ∃ i, Ends largestAndMore i ∧ [5] = largestAndMore.drop (i + 1) ∧
        (0xffffffffffffffff : UInt64).toNat = (groups (largestAndMore.take (i + 1))).sum ∧
        (encode 0xffffffffffffffff).length ≤ i + 1 := by
  have hread : decode largestAndMore = .ok (0xffffffffffffffff, [5]) := by decide +kernel
  exact ⟨hread, (decode_verdict.2 _).2.1 _ _ hread⟩

end StackScript.Varint
