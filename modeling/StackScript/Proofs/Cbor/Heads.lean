import Mathlib.Tactic.SplitIfs
import StackScript.Cbor.Encode
import StackScript.Cbor.Item

/-!
# Heads are read back

The head of an item is taken off the front of whatever follows it, with the major type and the
argument it was written for. An argument behind the first byte is a big-endian number, of one, two,
four or eight bytes; `Head.take_wide` speaks of all of them at once.
-/

namespace StackScript.Cbor

/-! ## Big-endian numbers -/

/-- A number takes its width. -/
@[simp] theorem length_bigEndianBytes (width n : Nat) :
    (bigEndianBytes width n).length = width := by
  unfold bigEndianBytes
  rw [List.length_map, List.length_range]

/-- The last byte is the lowest one. -/
theorem bigEndianBytes_succ (width n : Nat) :
    bigEndianBytes (width + 1) n = bigEndianBytes width (n / 256) ++ [UInt8.ofNat (n % 256)] := by
  unfold bigEndianBytes
  rw [List.range_succ, List.map_append]
  congr 1
  · apply List.map_congr_left
    intro i hi
    have hlt := List.mem_range.mp hi
    have hweight : width + 1 - 1 - i = width - 1 - i + 1 := by omega
    have hpow : Nat.pow 256 (width - 1 - i + 1) = 256 * Nat.pow 256 (width - 1 - i) :=
      Nat.mul_comm _ 256
    rw [hweight, hpow, Nat.div_div_eq_div_mul]
  · rw [List.map_singleton, Nat.add_sub_cancel, Nat.sub_self]
    simp

/-- A number that fits its width is the one that its bytes stand for. -/
theorem bigEndian_bigEndianBytes (width : Nat) {n : Nat} (h : n < Nat.pow 256 width) :
    bigEndian (bigEndianBytes width n) = n := by
  induction width generalizing n with
  | zero =>
    have hone : Nat.pow 256 0 = 1 := rfl
    obtain rfl : n = 0 := by omega
    rfl
  | succ width ih =>
    have hpow : Nat.pow 256 (width + 1) = Nat.pow 256 width * 256 := rfl
    have hhigh := ih (n := n / 256) (by omega)
    have hbyte : (UInt8.ofNat (n % 256)).toNat = n % 256 :=
      UInt8.toNat_ofNat_of_lt' (Nat.mod_lt _ (by decide))
    unfold bigEndian at hhigh ⊢
    rw [bigEndianBytes_succ, List.foldl_append, hhigh, List.foldl_cons, List.foldl_nil, hbyte]
    omega

/-! ## Heads -/

/-- Bytes are taken off the front of what follows them. -/
theorem split?_append {n : Nat} {s : Bytes} (h : s.length = n) (rest : Bytes) :
    split? n (s ++ rest) = some (s, rest) := by
  subst h
  unfold split?
  simp

/-- The two parts of a head's first byte. -/
theorem firstByte {major info : Nat} (hmajor : major < 8) (hinfo : info < 32) :
    (UInt8.ofNat (major * 32 + info)).toNat / 32 = major ∧
      (UInt8.ofNat (major * 32 + info)).toNat % 32 = info := by
  have hbyte : (UInt8.ofNat (major * 32 + info)).toNat = major * 32 + info :=
    UInt8.toNat_ofNat_of_lt' (by unfold UInt8.size; omega)
  rw [hbyte]
  omega

/-- A head with its argument in bytes of its own. -/
theorem Head.take_wide {major info arg : Nat} (hmajor : major < 8) (hmin : 24 ≤ info)
    (hmax : info < 28) (hsimple : ¬ (major = 7 ∧ info = 24))
    (harg : arg < Nat.pow 256 (argumentSize info)) (rest : Bytes) :
    Head.take
        (UInt8.ofNat (major * 32 + info) :: (bigEndianBytes (argumentSize info) arg ++ rest)) =
      some (⟨major, info, arg⟩, rest) := by
  obtain ⟨hdiv, hmod⟩ := firstByte hmajor (Nat.lt_trans hmax (by decide))
  have hallowed : ¬ (major = 7 && info = 24 && arg < 32) = true := by
    simp only [Bool.and_eq_true, decide_eq_true_eq]
    exact fun h => hsimple h.1
  unfold Head.take
  simp only [hdiv, hmod]
  rw [if_neg (Nat.not_lt.mpr hmin), if_pos hmax,
    split?_append (length_bigEndianBytes _ _) rest]
  simp only [Option.bind_eq_bind, Option.bind_some, bigEndian_bigEndianBytes _ harg]
  rw [if_neg hallowed]

/-- A head is read with its major type and its argument, and is not of indefinite length. -/
theorem Head.take_head {major arg : Nat} (hmajor : major < 7) (harg : arg < 0x10000000000000000)
    (rest : Bytes) :
    ∃ info, info ≠ 31 ∧ Head.take (head major arg ++ rest) = some (⟨major, info, arg⟩, rest) := by
  have hmajor8 := Nat.lt_trans hmajor (by decide : 7 < 8)
  have hwide (info : Nat) (hmin : 24 ≤ info) (hmax : info < 28)
      (hfits : arg < Nat.pow 256 (argumentSize info)) :
      ∃ i, i ≠ 31 ∧ Head.take (UInt8.ofNat (major * 32 + info) ::
        (bigEndianBytes (argumentSize info) arg ++ rest)) = some (⟨major, i, arg⟩, rest) :=
    ⟨info, by omega, Head.take_wide hmajor8 hmin hmax (by omega) hfits rest⟩
  unfold head
  simp only
  split
  · -- The argument is part of the first byte.
    rename_i hsmall
    obtain ⟨hdiv, hmod⟩ := @firstByte major arg hmajor8 (by omega)
    refine ⟨arg, by omega, ?_⟩
    unfold Head.take
    simp only [List.cons_append, List.nil_append, hdiv, hmod]
    rw [if_pos hsmall]
  split
  · exact hwide 24 (by decide) (by decide) ‹_›
  split
  · exact hwide 25 (by decide) (by decide) ‹_›
  split
  · exact hwide 26 (by decide) (by decide) ‹_›
  · exact hwide 27 (by decide) (by decide) harg

/-- A head has a byte. -/
theorem length_head_pos (major arg : Nat) : 0 < (head major arg).length := by
  unfold head
  simp only
  split_ifs <;> exact Nat.succ_pos _

end StackScript.Cbor
