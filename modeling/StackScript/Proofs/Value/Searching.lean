import StackScript.Proofs.Value.Entries

/-!
# Pools and lists of constants

A pool tells where a constant stands by its index and never looks through its entries. To its users
it is a list that is looked through from the front all the same: after any constants were added, in
any order and as often as one likes, adding a constant gives the least place of an identical entry,
and enters it at the end only if there is none (`Pool.searched_addAll`). What is special about keys
does not show: a NaN is identical to no entry and the index never has it, the two zeros are
identical and one key, and an array is identical to itself only.
-/

namespace StackScript.Pool

/-- The least place of an entry that is identical to a constant. -/
def IsFirst (p : Pool) (v : Cell) (i : Nat) : Prop :=
  (∃ e, p.entries[i]? = some e ∧ e.identical v = true) ∧
    ∀ j < i, ∀ e, p.entries[j]? = some e → e.identical v = false

/-- A pool in which constants are found as in a list that is looked through from the front, which
grows at its end only and has every constant once. -/
structure Searched (p : Pool) : Prop where
  /-- Adding gives the least place of an identical entry and changes nothing, if there is one. -/
  found : ∀ v i, p.add v = (p, i) ↔ p.IsFirst v i
  /-- Adding enters the constant at the end and gives its place, if there is none. -/
  entered : ∀ v, (∀ e ∈ p.entries, e.identical v = false) ↔
    (p.add v).1.entries = p.entries.push v ∧ (p.add v).2 = p.entries.size
  /-- The entries keep their places, whatever is added. -/
  kept : ∀ vs, p.entries.toList <+: (p.addAll vs).entries.toList
  /-- The truth values come first. -/
  truth : p.entries[0]? = some (some (.boolean false)) ∧ p.entries[1]? = some (some (.boolean true))
  /-- The integers from zero to nine come next. -/
  digits : ∀ n < 10, p.entries[n + 2]? = some (some (.integer (Int64.ofNat n)))
  /-- No two entries are identical. -/
  distinct : ∀ (i j : Nat) (a b : Cell), i ≠ j → p.entries[i]? = some a → p.entries[j]? = some b →
    a.identical b = false

/-! ## Any pool -/

/-- A constant that was entered is not identical to those in front of it. -/
theorem Built.distinct {entries : Array Cell} {index : List (Cell × Nat)}
    (h : Built entries index) : entries.toList.Pairwise fun a b => a.identical b = false := by
  induction h with
  | empty => exact .nil
  | @enter entries index v hbuilt hv ih =>
    rw [hbuilt.lookup_eq, List.findIdx?_eq_none_iff] at hv
    rw [Array.toList_push, List.pairwise_append]
    refine ⟨ih, List.pairwise_singleton _ _, ?_⟩
    intro e he u hu
    obtain rfl := List.mem_singleton.mp hu
    exact hv e he

/-- No two entries are identical, in either order. -/
theorem identical_of_ne (p : Pool) {i j : Nat} {a b : Cell} (hij : i ≠ j)
    (ha : p.entries[i]? = some a) (hb : p.entries[j]? = some b) : a.identical b = false := by
  rw [← Array.getElem?_toList, List.getElem?_eq_some_iff] at ha hb
  obtain ⟨hi, rfl⟩ := ha
  obtain ⟨hj, rfl⟩ := hb
  have hbefore := List.pairwise_iff_getElem.mp p.built.distinct
  rcases Nat.lt_or_gt_of_ne hij with hlt | hgt
  · exact hbefore i j hi hj hlt
  · rw [Bool.eq_false_iff]
    intro hsame
    have hback := Cell.identical_symm hsame
    rw [hbefore j i hj hi hgt] at hback
    cases hback

/-- What the index has is the least place. -/
theorem find?_eq_some_iff {p : Pool} {v : Cell} {i : Nat} :
    p.find? v = some i ↔ p.IsFirst v i := by
  rw [find?_eq, List.findIdx?_eq_some_iff_getElem]
  unfold IsFirst
  simp only [← Array.getElem?_toList]
  constructor
  · rintro ⟨hi, hid, hbefore⟩
    refine ⟨⟨_, List.getElem?_eq_getElem hi, hid⟩, ?_⟩
    intro j hj e he
    obtain ⟨hj', rfl⟩ := List.getElem?_eq_some_iff.mp he
    exact Bool.eq_false_iff.mpr (hbefore j hj)
  · rintro ⟨⟨e, he, hid⟩, hbefore⟩
    obtain ⟨hi, rfl⟩ := List.getElem?_eq_some_iff.mp he
    refine ⟨hi, hid, ?_⟩
    intro j hj
    exact Bool.eq_false_iff.mp
      (hbefore j hj _ (List.getElem?_eq_getElem (Nat.lt_trans hj hi)))

/-- The index has no place for a constant that no entry is identical to, and only then. -/
theorem find?_eq_none_iff {p : Pool} {v : Cell} :
    p.find? v = none ↔ ∀ e ∈ p.entries, e.identical v = false := by
  rw [find?_eq, List.findIdx?_eq_none_iff]
  simp only [Array.mem_toList_iff]

/-- Entering a constant changes a pool. -/
theorem enter_ne (p : Pool) (v : Cell) (h : p.find? v = none) : p.enter v h ≠ p := by
  intro heq
  have hsize : (p.entries.push v).size = p.entries.size := congrArg (fun q => q.entries.size) heq
  rw [Array.size_push] at hsize
  omega

/-- A constant is found where the search finds it. -/
theorem add_eq_self_iff (p : Pool) (v : Cell) (i : Nat) : p.add v = (p, i) ↔ p.IsFirst v i := by
  rw [← find?_eq_some_iff]
  constructor
  · intro hadd
    cases hfind : p.find? v with
    | some j =>
      rw [add_of_find?_some hfind] at hadd
      cases hadd
      rfl
    | none =>
      rw [add_of_find?_none hfind] at hadd
      exact absurd (congrArg Prod.fst hadd) (p.enter_ne v hfind)
  · exact add_of_find?_some

/-- A constant is entered if the search does not find it. -/
theorem add_eq_push_iff (p : Pool) (v : Cell) :
    (∀ e ∈ p.entries, e.identical v = false) ↔
      (p.add v).1.entries = p.entries.push v ∧ (p.add v).2 = p.entries.size := by
  rw [← find?_eq_none_iff]
  constructor
  · intro hfind
    rw [add_of_find?_none hfind]
    exact ⟨rfl, rfl⟩
  · rintro ⟨hpush, -⟩
    cases hfind : p.find? v with
    | none => rfl
    | some i =>
      rw [add_of_find?_some hfind] at hpush
      have hsize : p.entries.size = (p.entries.push v).size := congrArg Array.size hpush
      rw [Array.size_push] at hsize
      omega

/-! ## Pools that constants were added to -/

/-- The constants that every pool begins with stay where they are. -/
theorem seeds_initial (vs : List Cell) {k : Nat} {v : Value} (h : seeds[k]? = some v) :
    (initial.addAll vs).entries[k]? = some (some v) := by
  obtain ⟨rest, hrest⟩ := initial.addAll_growth vs
  obtain ⟨hk, -⟩ := List.getElem?_eq_some_iff.mp h
  rw [← Array.getElem?_toList, ← hrest, initial_entries,
    List.getElem?_append_left (by rwa [List.length_map]), List.getElem?_map, h]
  rfl

/-- After any constants were added, a pool is a list that is looked through from the front. -/
theorem searched_addAll (vs : List Cell) : (initial.addAll vs).Searched where
  found := (initial.addAll vs).add_eq_self_iff
  entered := (initial.addAll vs).add_eq_push_iff
  kept := (initial.addAll vs).addAll_growth
  truth := ⟨seeds_initial vs rfl, seeds_initial vs rfl⟩
  digits := by
    have hdigits : ∀ n < 10, seeds[n + 2]? = some (.integer (Int64.ofNat n)) := by decide
    intro n hn
    exact seeds_initial vs (hdigits n hn)
  distinct := fun _ _ _ _ hij => (initial.addAll vs).identical_of_ne hij

end StackScript.Pool
