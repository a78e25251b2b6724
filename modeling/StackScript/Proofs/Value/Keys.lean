import Mathlib.Data.List.Nodup
import Mathlib.Data.List.Pairwise
import StackScript.Proofs.Value.Renaming

/-!
# The arrays in values

The arrays of a value that a datum describes are counted in the order in which storing the datum
makes them. Storing gives them keys of its own, one after the other. Values that the same data
describe correspond under the renaming that takes the first array to the first, the second to the
second and so on, if no array is counted twice on either side.
-/

namespace StackScript

mutual

/-- The keys of the arrays of a value that a datum describes, inner ones first. -/
def Datum.keysOf (st : Store) : Datum → Value → List Nat
  | .array _ _ cells, .array key => Datum.keysOfAll st cells (st.grid key).cells.toList ++ [key]
  | _, _ => []

/-- The keys of the arrays of the values in cells that data describe. -/
def Datum.keysOfAll (st : Store) : List Datum → List Cell → List Nat
  | d :: ds, some v :: cells => d.keysOf st v ++ Datum.keysOfAll st ds cells
  | _, _ => []

end

mutual

/-- The number of arrays of a datum. -/
def Datum.arrays : Datum → Nat
  | .array _ _ cells => Datum.arraysAll cells + 1
  | _ => 0

/-- The number of arrays of data. -/
def Datum.arraysAll : List Datum → Nat
  | [] => 0
  | d :: ds => d.arrays + Datum.arraysAll ds

end

mutual

/-- Values that a datum describes have as many arrays as it has. -/
theorem Datum.Describes.length_keysOf {st : Store} {d : Datum} {v : Value}
    (h : d.Describes st v) : (d.keysOf st v).length = d.arrays := by
  match d with
  | .array rows cols cells =>
    obtain ⟨key, rfl, -, -, hcells⟩ := h
    unfold Datum.keysOf Datum.arrays
    rw [List.length_append, Datum.DescribesAll.length_keysOfAll hcells, List.length_singleton]
  | .integer _ | .real _ | .string _ | .boolean _ =>
    obtain rfl := h
    rfl

/-- Cells that data describe have as many arrays as they have. -/
theorem Datum.DescribesAll.length_keysOfAll {st : Store} {ds : List Datum} {cells : List Cell}
    (h : Datum.DescribesAll st ds cells) :
    (Datum.keysOfAll st ds cells).length = Datum.arraysAll ds := by
  match ds with
  | [] =>
    obtain rfl := h
    rfl
  | d :: ds =>
    obtain ⟨v, rest, rfl, hd, hds⟩ := h
    unfold Datum.keysOfAll Datum.arraysAll
    rw [List.length_append, hd.length_keysOf, Datum.DescribesAll.length_keysOfAll hds]

end

/-! ## Values of the same data -/

section Pairs

variable {st st' : Store} {ρ : Nat → Nat → Prop}

mutual

/-- Two values that a datum describes correspond, and so do their arrays, if the renaming pairs
those. -/
theorem Datum.Describes.renamed {d : Datum} {v w : Value} (hv : d.Describes st v)
    (hw : d.Describes st' w)
    (hρ : ∀ p ∈ (d.keysOf st v).zip (d.keysOf st' w), ρ p.1 p.2) :
    v.Renamed ρ w ∧ ∀ p ∈ (d.keysOf st v).zip (d.keysOf st' w),
      (st.grid p.1).Renamed ρ (st'.grid p.2) := by
  match d with
  | .array rows cols cells =>
    obtain ⟨k, rfl, hrows, hcols, hcells⟩ := hv
    obtain ⟨l, rfl, hrows', hcols', hcells'⟩ := hw
    unfold Datum.keysOf at hρ ⊢
    have hlength : (Datum.keysOfAll st cells (st.grid k).cells.toList).length =
        (Datum.keysOfAll st' cells (st'.grid l).cells.toList).length := by
      rw [hcells.length_keysOfAll, hcells'.length_keysOfAll]
    -- The keys of the cells come first and that of the array itself last, on both sides alike.
    rw [List.zip_append hlength] at hρ ⊢
    have hkl : ρ k l := hρ (k, l) (by simp)
    obtain ⟨hsame, hinner⟩ := Datum.DescribesAll.renamed hcells hcells'
      fun p hp => hρ p (List.mem_append_left _ hp)
    refine ⟨⟨l, rfl, hkl⟩, fun p hp => ?_⟩
    rcases List.mem_append.mp hp with hp | hp
    · exact hinner p hp
    · obtain rfl : p = (k, l) := by simpa using hp
      exact ⟨hrows'.trans hrows.symm, hcols'.trans hcols.symm, hsame⟩
  | .integer _ | .real _ | .string _ | .boolean _ =>
    obtain rfl := hv
    obtain rfl := hw
    exact ⟨rfl, nofun⟩

/-- Cells that the same data describe correspond, and so do their arrays, if the renaming pairs
those. -/
theorem Datum.DescribesAll.renamed {ds : List Datum} {cs cs' : List Cell}
    (hc : Datum.DescribesAll st ds cs) (hc' : Datum.DescribesAll st' ds cs')
    (hρ : ∀ p ∈ (Datum.keysOfAll st ds cs).zip (Datum.keysOfAll st' ds cs'), ρ p.1 p.2) :
    Cell.AllRenamed ρ cs cs' ∧
      ∀ p ∈ (Datum.keysOfAll st ds cs).zip (Datum.keysOfAll st' ds cs'),
        (st.grid p.1).Renamed ρ (st'.grid p.2) := by
  match ds with
  | [] =>
    obtain rfl := hc
    obtain rfl := hc'
    exact ⟨.nil, nofun⟩
  | d :: ds =>
    obtain ⟨v, rest, rfl, hd, hds⟩ := hc
    obtain ⟨w, rest', rfl, hd', hds'⟩ := hc'
    unfold Datum.keysOfAll at hρ ⊢
    rw [List.zip_append (hd.length_keysOf.trans hd'.length_keysOf.symm)] at hρ ⊢
    obtain ⟨hfirst, hkeys⟩ := hd.renamed hd' fun p hp => hρ p (List.mem_append_left _ hp)
    obtain ⟨hrest, hmore⟩ := Datum.DescribesAll.renamed hds hds'
      fun p hp => hρ p (List.mem_append_right _ hp)
    refine ⟨.cons ⟨w, rfl, hfirst⟩ hrest, fun p hp => ?_⟩
    rcases List.mem_append.mp hp with hp | hp
    · exact hkeys p hp
    · exact hmore p hp

end

/-- The parts of a pair stand at the same place in the two lists. -/
theorem exists_index_of_mem_zip {as bs : List Nat} {a b : Nat} (h : (a, b) ∈ as.zip bs) :
    ∃ i : Nat, as[i]? = some a ∧ bs[i]? = some b := by
  obtain ⟨i, hi⟩ := List.mem_iff_getElem?.mp h
  exact ⟨i, List.getElem?_zip_eq_some.mp hi⟩

/-- A key that occurs once occurs at one place. -/
theorem index_eq_of_nodup {as : List Nat} (h : as.Nodup) {i j a : Nat} (hi : as[i]? = some a)
    (hj : as[j]? = some a) : i = j := by
  have hlt : i < as.length := (List.getElem?_eq_some_iff.mp hi).1
  exact (List.getElem?_inj hlt h).mp (hi.trans hj.symm)

/-- Stores and cells correspond under the renaming of the arrays that the same data describe. -/
theorem Store.Renamed.of_keys {ds : List Datum} {cs cs' : List Cell}
    (hc : Datum.DescribesAll st ds cs) (hc' : Datum.DescribesAll st' ds cs')
    (hnodup : (Datum.keysOfAll st ds cs).Nodup) (hnodup' : (Datum.keysOfAll st' ds cs').Nodup)
    (hknown : ∀ k ∈ Datum.keysOfAll st ds cs, k < st.next)
    (hknown' : ∀ k ∈ Datum.keysOfAll st' ds cs', k < st'.next) :
    ∃ ρ, Store.Renamed ρ st st' ∧ Cell.AllRenamed ρ cs cs' := by
  -- The renaming pairs the keys that stand at the same place. As no key occurs twice, it is one to
  -- one.
  refine ⟨fun k l => (k, l) ∈ (Datum.keysOfAll st ds cs).zip (Datum.keysOfAll st' ds cs'), ?_, ?_⟩
  · exact
      { functional := by
          intro k l l' hl hl'
          obtain ⟨i, hk, hi⟩ := exists_index_of_mem_zip hl
          obtain ⟨j, hk', hj⟩ := exists_index_of_mem_zip hl'
          obtain rfl := index_eq_of_nodup hnodup hk hk'
          exact Option.some.inj (hi.symm.trans hj)
        injective := by
          intro k k' l hk hk'
          obtain ⟨i, hi, hl⟩ := exists_index_of_mem_zip hk
          obtain ⟨j, hj, hl'⟩ := exists_index_of_mem_zip hk'
          obtain rfl := index_eq_of_nodup hnodup' hl hl'
          exact Option.some.inj (hi.symm.trans hj)
        known := fun hl => ⟨hknown _ (List.of_mem_zip hl).1, hknown' _ (List.of_mem_zip hl).2⟩
        grids := fun hl => (hc.renamed hc' fun _ hp => hp).2 _ hl }
  · exact (hc.renamed hc' fun _ hp => hp).1

end Pairs

/-! ## The keys of stored data -/

mutual

/-- A datum that is stored gets the next keys. -/
theorem Datum.store_keys (d : Datum) (h : d.Shaped) (st : Store) {st' : Store}
    (hst : st'.Extends (d.store st).2) :
    d.keysOf st' (d.store st).1 = List.range' st.next d.arrays ∧
      (d.store st).2.next = st.next + d.arrays := by
  match d with
  | .integer _ | .real _ | .string _ | .boolean _ => exact ⟨rfl, rfl⟩
  | .array rows cols cells =>
    obtain ⟨-, hlength, hcells⟩ := h
    rw [Datum.store_array] at hst ⊢
    obtain ⟨hkeys, hnext⟩ :=
      Datum.storeAll_keys cells hcells st (hst.trans (Store.Extends.add _ _))
    obtain ⟨-, -, hgrid⟩ := Datum.storedGrid_eq hlength st
    unfold Datum.keysOf Datum.arrays
    refine ⟨?_, ?_⟩
    · rw [hst.grid_next, hgrid, hkeys, hnext, List.range'_concat, Nat.one_mul]
    · rw [Store.next_add, hnext, Nat.add_assoc]

/-- Data that are stored get the next keys. -/
theorem Datum.storeAll_keys (ds : List Datum) (h : Datum.AllShaped ds) (st : Store) {st' : Store}
    (hst : st'.Extends (Datum.storeAll #[] st ds).2) :
    Datum.keysOfAll st' ds (Datum.storeAll #[] st ds).1.toList =
        List.range' st.next (Datum.arraysAll ds) ∧
      (Datum.storeAll #[] st ds).2.next = st.next + Datum.arraysAll ds := by
  match ds with
  | [] => exact ⟨rfl, rfl⟩
  | d :: ds =>
    rw [Datum.storeAll_cons] at hst ⊢
    obtain ⟨hkeys, hnext⟩ := d.store_keys h.1 st (hst.trans (Datum.storeAll_extends ds _))
    obtain ⟨hmore, hend⟩ := Datum.storeAll_keys ds h.2 (d.store st).2 hst
    unfold Datum.arraysAll
    refine ⟨?_, ?_⟩
    · have hcells : (#[some (d.store st).1] ++ (Datum.storeAll #[] (d.store st).2 ds).1).toList =
          some (d.store st).1 :: (Datum.storeAll #[] (d.store st).2 ds).1.toList := by simp
      rw [hcells]
      unfold Datum.keysOfAll
      rw [hkeys, hmore, hnext, List.range'_append_1]
    · rw [hend, hnext, Nat.add_assoc]

end

/-! ## Constants among literals -/

/-- The cell holds a value that is no array, or is one of the literals. -/
def Cell.FromLiterals (literals : List Cell) (c : Cell) : Prop :=
  (∃ v, c = some v ∧ v.kind ≠ .array) ∨ c ∈ literals

/-- The cells do not hold the same array. -/
def Cell.DistinctArrays (c d : Cell) : Prop := ∀ k, c = some (.array k) → d ≠ some (.array k)

/-- A value that is no array may come from anywhere. -/
theorem Cell.FromLiterals.scalar {literals : List Cell} {v : Value} (h : v.kind ≠ .array) :
    Cell.FromLiterals literals (some v) := .inl ⟨v, rfl, h⟩

section Literals

variable {st : Store}

/-- Data and the cells that they describe as pairs. -/
theorem Datum.DescribesAll.exists_pairs {ds : List Datum} {cells : List Cell}
    (h : Datum.DescribesAll st ds cells) :
    ∃ pairs : List (Datum × Value), ds = pairs.map Prod.fst ∧
      cells = pairs.map (fun p => some p.2) ∧ (∀ p ∈ pairs, p.1.Describes st p.2) ∧
      Datum.keysOfAll st ds cells = pairs.flatMap fun p => p.1.keysOf st p.2 := by
  induction ds generalizing cells with
  | nil =>
    obtain rfl := h
    exact ⟨[], rfl, rfl, nofun, rfl⟩
  | cons d ds ih =>
    obtain ⟨v, rest, rfl, hd, hrest⟩ := h
    obtain ⟨pairs, rfl, rfl, hpairs, hkeys⟩ := ih hrest
    refine ⟨(d, v) :: pairs, rfl, rfl, List.forall_mem_cons.mpr ⟨hd, hpairs⟩, ?_⟩
    rw [Datum.keysOfAll, hkeys, List.flatMap_cons]

/-- A value that is no array is described by a datum without arrays. -/
theorem Value.exists_datum (st : Store) {v : Value} (h : v.kind ≠ .array) :
    ∃ d : Datum, d.Describes st v ∧ d.Shaped ∧ d.keysOf st v = [] := by
  cases v with
  | integer n => exact ⟨.integer n, rfl, trivial, rfl⟩
  | real x => exact ⟨.real x, rfl, trivial, rfl⟩
  | string s => exact ⟨.string s, rfl, trivial, rfl⟩
  | boolean b => exact ⟨.boolean b, rfl, trivial, rfl⟩
  | array k => exact absurd rfl h

/-- Only an array has keys. -/
theorem Datum.exists_array_of_mem_keysOf {d : Datum} {v : Value} {k : Nat}
    (h : k ∈ d.keysOf st v) : ∃ l, v = .array l := by
  cases d <;> cases v
  case array.array => exact ⟨_, rfl⟩
  all_goals cases h

/-- Constants from literals that share no array share none either, if no array is among them
twice. -/
theorem Datum.exists_describesAll_nodup {pairs : List (Datum × Value)}
    (hdescribes : ∀ p ∈ pairs, p.1.Describes st p.2) (hshaped : ∀ p ∈ pairs, p.1.Shaped)
    (hnodup : (pairs.flatMap fun p => p.1.keysOf st p.2).Nodup) {cells : List Cell}
    (horigin : ∀ c ∈ cells, c.FromLiterals (pairs.map fun p => some p.2))
    (hdistinct : cells.Pairwise Cell.DistinctArrays) :
    ∃ ds, Datum.DescribesAll st ds cells ∧ Datum.AllShaped ds ∧
      (Datum.keysOfAll st ds cells).Nodup ∧
      ∀ k ∈ Datum.keysOfAll st ds cells,
        ∃ p ∈ pairs, some p.2 ∈ cells ∧ k ∈ p.1.keysOf st p.2 := by
  obtain ⟨heach, hapart⟩ := List.nodup_flatMap.mp hnodup
  induction cells with
  | nil => exact ⟨[], rfl, trivial, List.nodup_nil, nofun⟩
  | cons c cells ih =>
    obtain ⟨hfirst, hrest⟩ := List.forall_mem_cons.mp horigin
    obtain ⟨hother, hdistinct⟩ := List.pairwise_cons.mp hdistinct
    obtain ⟨ds, hds, hdsShaped, hdsNodup, hkeys⟩ := ih hrest hdistinct
    have hlater : ∀ k ∈ Datum.keysOfAll st ds cells,
        ∃ p ∈ pairs, some p.2 ∈ c :: cells ∧ k ∈ p.1.keysOf st p.2 := by
      intro k hk
      obtain ⟨p, hp, hmem, hkp⟩ := hkeys k hk
      exact ⟨p, hp, List.mem_cons_of_mem _ hmem, hkp⟩
    rcases hfirst with ⟨v, rfl, hv⟩ | hliteral
    · obtain ⟨d, hd, hdShaped, hnone⟩ := Value.exists_datum st hv
      refine ⟨d :: ds, ⟨v, cells, rfl, hd, hds⟩, ⟨hdShaped, hdsShaped⟩, ?_⟩
      rw [Datum.keysOfAll, hnone, List.nil_append]
      exact ⟨hdsNodup, hlater⟩
    · obtain ⟨p, hp, rfl⟩ := List.mem_map.mp hliteral
      refine ⟨p.1 :: ds, ⟨p.2, cells, rfl, hdescribes p hp, hds⟩, ⟨hshaped p hp, hdsShaped⟩, ?_⟩
      rw [Datum.keysOfAll]
      constructor
      · refine List.nodup_append.mpr ⟨heach p hp, hdsNodup, ?_⟩
        -- An array of a later constant is one of another literal.
        rintro k hk l hl rfl
        obtain ⟨p', hp', hmem, hkp'⟩ := hkeys k hl
        obtain ⟨key, hkey⟩ := Datum.exists_array_of_mem_keysOf hk
        have hne : p ≠ p' := by
          rintro rfl
          exact hother _ hmem key (congrArg some hkey) (congrArg some hkey)
        have hsymm : Std.Symm (Function.onFun List.Disjoint
            fun p : Datum × Value => p.1.keysOf st p.2) := ⟨fun _ _ h => h.symm⟩
        exact hapart.forall hp hp' hne hk hkp'
      · intro k hk
        rcases List.mem_append.mp hk with hk | hk
        · exact ⟨p, hp, List.mem_cons_self, hk⟩
        · exact hlater k hk

end Literals

end StackScript
