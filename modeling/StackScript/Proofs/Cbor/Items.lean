import Mathlib.Data.List.Forall2
import StackScript.Proofs.Cbor.Floats
import StackScript.Proofs.Cbor.Heads

/-!
# Written items are read back

`Written levels s i` says that the bytes `s` hold the item `i` in `levels` levels of arrays and
maps: they are taken off the front of whatever follows wherever so many levels are left. There is a
rule for each way that bytes are written, so the bytes of a nested item are read by putting the
rules together as the bytes were put together.
-/

namespace StackScript.Cbor

variable {s : Bytes} {i : Item} {parts : List Bytes} {items : List Item} {arg n : Nat}

/-- The bytes hold the item, which has so many levels of arrays and maps at most. -/
def Written (levels : Nat) (s : Bytes) (i : Item) : Prop :=
  ∀ (fuel depth : Nat) (rest : Bytes), s.length < fuel → depth + levels ≤ maxNesting →
    takeWithin fuel depth (s ++ rest) = some (i, rest)

/-- The item of an integer. -/
def Item.ofInt64 (n : Int64) : Item :=
  if 0 ≤ n.toInt then .unsigned n.toInt.toNat else .negative (-1 - n.toInt).toNat

/-- The one NaN that is read from the one that is written. -/
def canonicalNaN : Binary64 := ⟨0x7FF8000000000000⟩

/-- A number as it is read back. -/
def canonicalReal (x : Binary64) : Binary64 := if x.isNaN then canonicalNaN else x

/-- The keys and values of the fields that have a value. -/
def entryItems (name : α → Bytes) : List (α × Option Item) → List Item
  | [] => []
  | (_, none) :: fields => entryItems name fields
  | (n, some i) :: fields => .text [name n] :: i :: entryItems name fields

/-- An entry of a map holds the item of a field under its name, or both are left out. -/
def WrittenEntry (name : α → Bytes) (levels : Nat) (e : Bytes × Option Bytes)
    (f : α × Option Item) : Prop :=
  e.1 = name f.1 ∧ e.1.length < 0x10000000000000000 ∧ Option.Rel (Written levels) e.2 f.2

namespace Written

variable {levels : Nat}

/-- An item may be allowed more levels. -/
theorem mono {levels' : Nat} (hle : levels ≤ levels') (h : Written levels s i) :
    Written levels' s i :=
  fun fuel depth rest hfuel hdepth => h fuel depth rest hfuel (by omega)

/-- Bytes that hold an item of few enough levels are read as it. -/
theorem read? (h : Written levels s i) (hlevels : levels ≤ maxNesting) : Item.read? s = some i := by
  have htake := h (s.length + 1) 0 [] (Nat.lt_succ_self _) (by omega)
  rw [List.append_nil] at htake
  unfold Item.read?
  rw [htake]

/-! ## Items without levels -/

/-- What a head starts is written if it is read after the head. -/
theorem of_head {major : Nat} (hmajor : major < 7) (harg : arg < 0x10000000000000000)
    (h : ∀ info fuel depth rest, info ≠ 31 → (head major arg ++ s).length ≤ fuel →
      depth + levels ≤ maxNesting →
      Head.take (head major arg ++ (s ++ rest)) = some (⟨major, info, arg⟩, s ++ rest) →
      takeWithin (fuel + 1) depth (head major arg ++ (s ++ rest)) = some (i, rest)) :
    Written levels (head major arg ++ s) i := by
  intro fuel depth rest hfuel hdepth
  obtain ⟨info, hinfo, htake⟩ := Head.take_head hmajor harg (s ++ rest)
  cases fuel with
  | zero => cases hfuel
  | succ fuel =>
    rw [List.append_assoc]
    exact h info fuel depth rest hinfo (Nat.le_of_lt_succ hfuel) hdepth htake

/-- An unsigned integer is written. -/
theorem unsigned (hn : n < 0x10000000000000000) : Written levels (head 0 n) (.unsigned n) := by
  rw [← List.append_nil (head 0 n)]
  apply of_head (by decide) hn
  intro info fuel depth rest _ _ _ htake
  rw [takeWithin, htake]
  rfl

/-- A negative integer is written. -/
theorem negative (hn : n < 0x10000000000000000) : Written levels (head 1 n) (.negative n) := by
  rw [← List.append_nil (head 1 n)]
  apply of_head (by decide) hn
  intro info fuel depth rest _ _ _ htake
  rw [takeWithin, htake]
  rfl

/-- An integer is written. -/
theorem integer (n : Int64) : Written levels (integer n.toInt) (.ofInt64 n) := by
  have hlow : -0x8000000000000000 ≤ n.toInt := n.le_toInt
  have hhigh : n.toInt < 0x8000000000000000 := n.toInt_lt
  unfold Cbor.integer Item.ofInt64
  split
  · exact unsigned (by omega)
  · exact negative (by omega)

/-- A text is written. -/
theorem text {s : Bytes} (hs : s.length < 0x10000000000000000) :
    Written levels (text s) (.text [s]) := by
  apply of_head (by decide) hs
  intro info fuel depth rest hinfo _ _ htake
  rw [takeWithin, htake]
  simp only [Option.bind_eq_bind, Option.bind_some]
  rw [if_neg hinfo, split?_append rfl]
  rfl

/-- What one byte without an argument decides. -/
theorem of_byte {b : UInt8} (hmajor : b.toNat / 32 = 7) (hinfo : b.toNat % 32 < 24)
    (hi : primitive ⟨7, b.toNat % 32, b.toNat % 32⟩ = i) : Written levels [b] i := by
  intro fuel depth rest hfuel _
  cases fuel with
  | zero => cases hfuel
  | succ fuel =>
    rw [takeWithin, List.cons_append, Head.take, if_pos hinfo, hmajor]
    exact congrArg (fun i => some (i, rest)) hi

/-- The null is written. -/
theorem null : Written levels null .null := of_byte (by decide) (by decide) rfl

/-- A boolean is written. -/
theorem bool (b : Bool) : Written levels (bool b) (.bool b) := by
  cases b
  · exact of_byte (by decide) (by decide) rfl
  · exact of_byte (by decide) (by decide) rfl

/-- A number of a width is written. -/
theorem of_float (info : Nat) {x : Binary64} (hmin : 24 < info) (hmax : info < 28)
    (harg : arg < Nat.pow 256 (argumentSize info)) (hx : primitive ⟨7, info, arg⟩ = .float x) :
    Written levels (UInt8.ofNat (7 * 32 + info) :: bigEndianBytes (argumentSize info) arg)
      (.float x) := by
  intro fuel depth rest hfuel _
  cases fuel with
  | zero => cases hfuel
  | succ fuel =>
    rw [takeWithin, List.cons_append,
      Head.take_wide (by decide) (Nat.le_of_lt hmin) hmax (by omega) harg]
    exact congrArg (fun i => some (i, rest)) hx

/-- A number is written, up to the pattern of a NaN. -/
theorem float (x : Binary64) : Written levels (float x) (.float (canonicalReal x)) := by
  unfold Cbor.float canonicalReal
  split
  · have hwiden : FloatFormat.binary16.widen 0x7E00 = canonicalNaN := by decide
    have hlt : 0x7E00 < Nat.pow 256 (argumentSize 25) := by decide
    exact of_float 25 (by decide) (by decide) hlt (congrArg Item.float hwiden)
  rename_i hnan
  rw [Bool.not_eq_true] at hnan
  split
  · rename_i bits hbits
    obtain ⟨hlt, hwiden⟩ := FloatFormat.narrow?_spec FloatFormat.binary16_narrower hnan hbits
    exact of_float 25 (by decide) (by decide) hlt (congrArg Item.float hwiden)
  split
  · rename_i bits hbits
    obtain ⟨hlt, hwiden⟩ := FloatFormat.narrow?_spec FloatFormat.binary32_narrower hnan hbits
    exact of_float 26 (by decide) (by decide) hlt (congrArg Item.float hwiden)
  · refine of_float 27 (by decide) (by decide) x.bits.toNat_lt ?_
    exact congrArg (fun b => Item.float ⟨b⟩) UInt64.ofNat_toNat

/-! ## Arrays and maps -/

/-- Items are taken one after the other. -/
theorem takeCount_parts {item : Bytes → Option (Item × Bytes)}
    (h : List.Forall₂ (fun s i => ∀ rest, item (s ++ rest) = some (i, rest)) parts items)
    (acc : List Item) (rest : Bytes) :
    takeCount item acc parts.length (parts.flatten ++ rest) =
      some (acc.reverse ++ items, rest) := by
  induction h generalizing acc with
  | nil => rw [List.append_nil]; rfl
  | @cons s i parts items hs _ ih =>
    rw [List.length_cons, List.flatten_cons, List.append_assoc, takeCount, hs]
    simp only
    rw [ih, List.reverse_cons, List.append_assoc]
    rfl

/-- A part is no longer than the whole. -/
theorem length_le_of_mem (h : s ∈ parts) : s.length ≤ parts.flatten.length :=
  (List.sublist_flatten_of_mem h).length_le

/-- The elements of an array or the keys and values of a map are taken off the front. -/
theorem takeElements_parts (h : List.Forall₂ (Written levels) parts items) (major : Nat)
    {info count fuel depth : Nat} (hinfo : info ≠ 31) (hcount : count ≤ maxElements)
    (hparts : (if major = 5 then 2 else 1) * count = parts.length)
    (hfuel : parts.flatten.length < fuel) (hdepth : depth + levels ≤ maxNesting) (rest : Bytes) :
    takeElements (takeWithin fuel depth) ⟨major, info, count⟩ (parts.flatten ++ rest) =
      some (items, rest) := by
  have heach : List.Forall₂ (fun s i => ∀ rest, takeWithin fuel depth (s ++ rest) = some (i, rest))
      parts items := by
    rw [List.forall₂_iff_get] at h ⊢
    refine ⟨h.1, fun n hn hn' rest => h.2 n hn hn' fuel depth rest ?_ hdepth⟩
    exact Nat.lt_of_le_of_lt (length_le_of_mem (List.get_mem _ _)) hfuel
  unfold takeElements
  simp only
  rw [if_neg hinfo, if_neg (Nat.not_lt.mpr hcount), hparts, takeCount_parts heach]
  rfl

/-- An array is written one level up. -/
theorem array {parts : List Bytes} {items : List Item}
    (h : List.Forall₂ (Written levels) parts items) (hlength : parts.length ≤ maxElements) :
    Written (levels + 1) (array parts) (.array items) := by
  apply of_head (by decide) (Nat.lt_of_le_of_lt hlength (by decide))
  intro info fuel depth rest hinfo hfuel hdepth htake
  have hpos := length_head_pos 4 parts.length
  rw [List.length_append] at hfuel
  rw [takeWithin, htake]
  simp only [Option.bind_eq_bind, Option.bind_some]
  rw [if_neg (by omega), takeElements_parts h 4 hinfo hlength (Nat.one_mul _) (by omega) (by omega)]
  rfl

/-- The entries that are present, taken apart into keys and values. -/
theorem exists_parts {name : α → Bytes} {entries : List (Bytes × Option Bytes)}
    {fields : List (α × Option Item)}
    (h : List.Forall₂ (WrittenEntry name levels) entries fields) {present : List Bytes}
    (hpresent : present = entries.filterMap fun (k, v) => v.map fun v => Cbor.text k ++ v) :
    ∃ parts : List Bytes, parts.flatten = present.flatten ∧ parts.length = 2 * present.length ∧
      List.Forall₂ (Written levels) parts (entryItems name fields) := by
  subst hpresent
  induction h with
  | nil => exact ⟨[], rfl, rfl, .nil⟩
  | @cons e f entries fields hentry _ ih =>
    obtain ⟨parts, hflatten, hlength, hparts⟩ := ih
    obtain ⟨k, s?⟩ := e
    obtain ⟨n, i?⟩ := f
    obtain ⟨rfl, hk, hrel⟩ := hentry
    cases hrel with
    | none => exact ⟨parts, hflatten, hlength, hparts⟩
    | @some s i hs =>
      refine ⟨Cbor.text (name n) :: s :: parts, ?_, ?_, .cons (text hk) (.cons hs hparts)⟩
      · simp [hflatten]
      · simp only [List.length_cons, hlength, List.filterMap_cons, Option.map_some]
        omega

/-- A map is written one level up. -/
theorem map {name : α → Bytes} {entries : List (Bytes × Option Bytes)}
    {fields : List (α × Option Item)} (h : List.Forall₂ (WrittenEntry name levels) entries fields)
    (hlength : entries.length ≤ maxElements) :
    Written (levels + 1) (map entries) (.map (entryItems name fields)) := by
  generalize hpresent :
    (entries.filterMap fun (k, v) => v.map fun v => Cbor.text k ++ v) = present
  obtain ⟨parts, hflatten, hcount, hparts⟩ := exists_parts h hpresent.symm
  have hle : present.length ≤ maxElements := by
    rw [← hpresent]
    exact Nat.le_trans (List.length_filterMap_le _ _) hlength
  have hmap : Cbor.map entries = head 5 present.length ++ parts.flatten := by
    rw [hflatten, ← hpresent]
    rfl
  rw [hmap]
  apply of_head (by decide) (Nat.lt_of_le_of_lt hle (by decide))
  intro info fuel depth rest hinfo hfuel hdepth htake
  have hpos := length_head_pos 5 present.length
  rw [List.length_append] at hfuel
  rw [takeWithin, htake]
  simp only [Option.bind_eq_bind, Option.bind_some]
  rw [if_neg (by omega), takeElements_parts hparts 5 hinfo hle hcount.symm (by omega) (by omega)]
  rfl

end Written

end StackScript.Cbor
