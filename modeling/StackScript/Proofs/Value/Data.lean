import Mathlib.Data.Finset.Card
import Mathlib.Order.Monotone.Basic
import StackScript.Proofs.Value.Grids
import StackScript.Value.Datum

/-!
# Values and their data

A datum describes a value if it has the value's contents, and, where the value is an array, the
size of its grid and data that describe its cells. A value is whole if no cell is missing in it and
its arrays are nested only so deep, so none contains itself. Every whole value is described by a
datum, and `Value.snapshot` finds it although it looks only as deep as there are arrays: the arrays
that can be written out within a depth become more and more with it, and once they become no more
they never do. In the other direction, the value that `Datum.store` makes is described by the datum.
-/

namespace StackScript

variable {d : Datum} {cells : List Cell} {ds : List Datum} {key m n : Nat} {st st' : Store}
  {v : Value}

mutual

/-- A datum has the contents of a value. -/
def Datum.Describes (st : Store) : Datum → Value → Prop
  | .integer n, v => v = .integer n
  | .real x, v => v = .real x
  | .string s, v => v = .string s
  | .boolean b, v => v = .boolean b
  | .array rows cols cells, v =>
    ∃ key, v = .array key ∧ (st.grid key).rows = rows ∧ (st.grid key).cols = cols ∧
      Datum.DescribesAll st cells (st.grid key).cells.toList

/-- Data have the contents of the values in cells, one each. -/
def Datum.DescribesAll (st : Store) : List Datum → List Cell → Prop
  | [], cells => cells = []
  | d :: ds, cells =>
    ∃ v rest, cells = some v :: rest ∧ d.Describes st v ∧ Datum.DescribesAll st ds rest

end

/-- A value that can be written out: each of its arrays has a size that arrays can have and a value
in every cell, and the nesting of arrays comes to an end. -/
inductive Value.Whole (st : Store) : Value → Prop
  | integer (n : Int64) : Whole st (.integer n)
  | real (x : Binary64) : Whole st (.real x)
  | string (s : Bytes) : Whole st (.string s)
  | boolean (b : Bool) : Whole st (.boolean b)
  | array {key : Nat} (size : Grid.sizeAllowed (st.grid key).rows (st.grid key).cols = true)
      (present : none ∉ (st.grid key).cells.toList)
      (cells : ∀ v, some v ∈ (st.grid key).cells.toList → Whole st v) : Whole st (.array key)

/-- A cell that holds a value which can be written out. -/
def Cell.Whole (st : Store) (c : Cell) : Prop := ∃ v, c = some v ∧ v.Whole st

mutual

/-- The arrays of a datum have sizes that arrays can have, and a cell for each place. -/
def Datum.Shaped : Datum → Prop
  | .array rows cols cells =>
    Grid.sizeAllowed rows cols = true ∧ cells.length = rows * cols ∧ Datum.AllShaped cells
  | _ => True

/-- All data have arrays as they should be. -/
def Datum.AllShaped : List Datum → Prop
  | [] => True
  | d :: ds => d.Shaped ∧ Datum.AllShaped ds

end

mutual

/-- How deep the arrays of a datum are nested. -/
def Datum.depth : Datum → Nat
  | .array _ _ cells => Datum.depthAll cells + 1
  | _ => 0

/-- How deep the arrays of data are nested. -/
def Datum.depthAll : List Datum → Nat
  | [] => 0
  | d :: ds => max d.depth (Datum.depthAll ds)

end

/-- Values are shaped one by one. -/
theorem Datum.allShaped_iff : Datum.AllShaped ds ↔ ∀ d ∈ ds, d.Shaped := by
  induction ds with
  | nil => simp [Datum.AllShaped]
  | cons d ds ih => rw [Datum.AllShaped, ih, List.forall_mem_cons]

/-- One of some shaped values is shaped. -/
theorem Datum.AllShaped.of_mem (h : Datum.AllShaped ds) (hd : d ∈ ds) : d.Shaped := by
  induction ds with
  | nil => cases hd
  | cons e ds ih =>
    rcases List.mem_cons.mp hd with rfl | hd
    · exact h.1
    · exact ih h.2 hd

/-- There are as many data as cells that they describe. -/
theorem Datum.DescribesAll.length_eq (h : Datum.DescribesAll st ds cells) :
    ds.length = cells.length := by
  induction ds generalizing cells with
  | nil =>
    obtain rfl : cells = [] := h
    rfl
  | cons d ds ih =>
    obtain ⟨v, rest, rfl, -, hrest⟩ := h
    rw [List.length_cons, List.length_cons, ih hrest]

/-! ## Whole values have data -/

/-- Cells that hold described values are described. -/
theorem Datum.exists_describesAll
    (h : ∀ c ∈ cells, ∃ v d, c = some v ∧ Datum.Describes st d v ∧ d.Shaped) :
    ∃ ds, Datum.DescribesAll st ds cells ∧ Datum.AllShaped ds := by
  induction cells with
  | nil => exact ⟨[], rfl, trivial⟩
  | cons c cells ih =>
    obtain ⟨v, d, rfl, hd, hshaped⟩ := h c List.mem_cons_self
    obtain ⟨ds, hds, hall⟩ := ih fun c' hc => h c' (List.mem_cons_of_mem _ hc)
    exact ⟨d :: ds, ⟨v, cells, rfl, hd, hds⟩, hshaped, hall⟩

/-- A whole value is described by a datum. -/
theorem Value.Whole.exists_describes (h : v.Whole st) :
    ∃ d : Datum, d.Describes st v ∧ d.Shaped := by
  induction h with
  | integer n => exact ⟨.integer n, rfl, trivial⟩
  | real x => exact ⟨.real x, rfl, trivial⟩
  | string s => exact ⟨.string s, rfl, trivial⟩
  | boolean b => exact ⟨.boolean b, rfl, trivial⟩
  | @array key hsize hpresent hcells ih =>
    have heach : ∀ c ∈ (st.grid key).cells.toList,
        ∃ v d, c = some v ∧ Datum.Describes st d v ∧ d.Shaped := by
      intro c hc
      cases c with
      | none => exact absurd hc hpresent
      | some v =>
        obtain ⟨d, hd⟩ := ih v hc
        exact ⟨v, d, rfl, hd⟩
    obtain ⟨ds, hds, hall⟩ := Datum.exists_describesAll heach
    have hlength : ds.length = (st.grid key).rows * (st.grid key).cols := by
      rw [hds.length_eq, Array.length_toList, (st.grid key).size_cells]
    exact ⟨.array _ _ ds, ⟨key, rfl, rfl, rfl, hds⟩, hsize, hlength, hall⟩

/-! ## Writing out -/

/-- The datum of a cell whose arrays are nested less than `depth` deep. -/
def Cell.snapshotWithin (st : Store) (depth : Nat) : Cell → Except Gap Datum
  | some v => v.snapshotWithin st depth
  | none => .error .missing

namespace Value

variable {st : Store}

/-- An array is written out with its size and the data of its cells. -/
theorem snapshotWithin_array (st : Store) (n key : Nat) :
    (Value.array key).snapshotWithin st (n + 1) =
      ((st.grid key).cells.toList.mapM (Cell.snapshotWithin st n)).map
        (Datum.array (st.grid key).rows (st.grid key).cols) := by
  have hcell : Cell.snapshotWithin st n = fun
      | some v => v.snapshotWithin st n
      | none => .error .missing := by
    funext c
    cases c <;> rfl
  rw [hcell, snapshotWithin]
  rfl

end Value

/-- A sequence succeeds if its first part does and then its second. -/
theorem except_bind_eq_ok {ε α β : Type} {x : Except ε α} {f : α → Except ε β} {b : β}
    (h : (x >>= f) = .ok b) : ∃ a, x = .ok a ∧ f a = .ok b := by
  cases x with
  | ok a => exact ⟨a, rfl, h⟩
  | error e => cases h

/-- Going through a list with something that may fail succeeds if it does for the first element and
for the rest. -/
theorem mapM_cons_eq_ok {f : α → Except ε β} {a : α} {as : List α} {bs : List β} :
    (a :: as).mapM f = .ok bs ↔ ∃ b rest, f a = .ok b ∧ as.mapM f = .ok rest ∧ bs = b :: rest := by
  rw [List.mapM_cons]
  cases f a with
  | error e => simp [bind, Except.bind]
  | ok b =>
    cases as.mapM f with
    | error e => simp [bind, Except.bind]
    | ok rest => simp [bind, Except.bind, pure, Except.pure, eq_comm]

mutual

/-- A value is written out as the datum that describes it, if that is not nested too deep. -/
theorem Datum.Describes.snapshotWithin {st : Store} {d : Datum} {v : Value}
    (h : d.Describes st v) {n : Nat} (hn : d.depth ≤ n) : v.snapshotWithin st n = .ok d := by
  match d with
  | .integer m =>
    obtain rfl : v = .integer m := h
    cases n <;> rfl
  | .real x =>
    obtain rfl : v = .real x := h
    cases n <;> rfl
  | .string s =>
    obtain rfl : v = .string s := h
    cases n <;> rfl
  | .boolean b =>
    obtain rfl : v = .boolean b := h
    cases n <;> rfl
  | .array rows cols cells =>
    obtain ⟨key, rfl, rfl, rfl, hcells⟩ := h
    obtain ⟨n, rfl⟩ : ∃ m, n = m + 1 := ⟨n - 1, by unfold Datum.depth at hn; omega⟩
    have hdepth : Datum.depthAll cells ≤ n := Nat.le_of_succ_le_succ hn
    rw [Value.snapshotWithin_array, hcells.snapshotWithin hdepth]
    rfl

/-- Cells are written out as the data that describe them. -/
theorem Datum.DescribesAll.snapshotWithin {st : Store} {ds : List Datum} {cells : List Cell}
    (h : Datum.DescribesAll st ds cells) {n : Nat} (hn : Datum.depthAll ds ≤ n) :
    cells.mapM (Cell.snapshotWithin st n) = .ok ds := by
  match ds with
  | [] =>
    obtain rfl : cells = [] := h
    rfl
  | d :: ds =>
    obtain ⟨v, rest, rfl, hd, hds⟩ := h
    unfold Datum.depthAll at hn
    have hfirst : Cell.snapshotWithin st n (some v) = .ok d := hd.snapshotWithin (by omega)
    exact mapM_cons_eq_ok.mpr ⟨d, ds, hfirst, hds.snapshotWithin (by omega), rfl⟩

end

namespace Value

variable {st : Store}

/-- What can be written out for each element within one bound can be so within another, if that is
so of the elements. -/
theorem mapM_imp {f g : α → Except ε β} {as : List α} {bs : List β}
    (h : ∀ a ∈ as, ∀ b, f a = .ok b → g a = .ok b) (hbs : as.mapM f = .ok bs) :
    as.mapM g = .ok bs := by
  induction as generalizing bs with
  | nil => exact hbs
  | cons a as ih =>
    obtain ⟨b, rest, hb, hrest, rfl⟩ := mapM_cons_eq_ok.mp hbs
    have hmore := ih (fun a' ha' => h a' (List.mem_cons_of_mem _ ha')) hrest
    exact mapM_cons_eq_ok.mpr ⟨b, rest, h a List.mem_cons_self b hb, hmore, rfl⟩

/-- If values can be written out within another bound, then the arrays of such values can be within
one level more. -/
theorem snapshotWithin_array_imp
    (h : ∀ v d, snapshotWithin st m v = .ok d → snapshotWithin st n v = .ok d)
    (hd : snapshotWithin st (m + 1) (.array key) = .ok d) :
    snapshotWithin st (n + 1) (.array key) = .ok d := by
  rw [snapshotWithin_array] at hd ⊢
  cases hcells : (st.grid key).cells.toList.mapM (Cell.snapshotWithin st m) with
  | error e =>
    rw [hcells] at hd
    cases hd
  | ok ds =>
    have hmore : (st.grid key).cells.toList.mapM (Cell.snapshotWithin st n) = .ok ds := by
      refine mapM_imp (fun c _ d hc => ?_) hcells
      cases c with
      | none => cases hc
      | some v => exact h v d hc
    rw [hmore, ← hcells]
    exact hd

/-- What is written out within a bound is written out within a larger one. -/
theorem snapshotWithin_succ (n : Nat) :
    ∀ v d, snapshotWithin st n v = .ok d → snapshotWithin st (n + 1) v = .ok d := by
  induction n with
  | zero =>
    intro v d hd
    cases v with
    | array key => cases hd
    | _ => exact hd
  | succ n ih =>
    intro v d hd
    cases v with
    | array key => exact snapshotWithin_array_imp ih hd
    | _ => exact hd

/-- More levels give the same snapshot. -/
theorem snapshotWithin_mono (h : m ≤ n) (hd : snapshotWithin st m v = .ok d) :
    snapshotWithin st n v = .ok d := by
  induction h with
  | refl => exact hd
  | step _ ih => exact snapshotWithin_succ _ v d ih

/-- The arrays that can be written out if they are nested less than `n + 2` deep. -/
def writable (st : Store) (n : Nat) : Finset Nat :=
  (Finset.range st.grids.size).filter fun key =>
    (snapshotWithin st (n + 1) (.array key)).isOk = true

/-- An array is writable if it has a snapshot. -/
theorem mem_writable :
    key ∈ writable st n ↔
      key < st.grids.size ∧ ∃ d, snapshotWithin st (n + 1) (.array key) = .ok d := by
  unfold writable
  rw [Finset.mem_filter, Finset.mem_range]
  cases snapshotWithin st (n + 1) (.array key) with
  | ok d => simp [Except.isOk, Except.toBool]
  | error e => simp [Except.isOk, Except.toBool]

/-- More levels make more arrays writable. -/
theorem writable_subset (n : Nat) : writable st n ⊆ writable st (n + 1) := by
  intro key hkey
  obtain ⟨hlt, d, hd⟩ := mem_writable.mp hkey
  exact mem_writable.mpr ⟨hlt, d, snapshotWithin_succ _ _ d hd⟩

/-- A key that was never handed out has a grid without cells. -/
theorem snapshotWithin_of_size_le (h : st.grids.size ≤ key) (m n : Nat) :
    snapshotWithin st (m + 1) (.array key) = snapshotWithin st (n + 1) (.array key) := by
  rw [snapshotWithin_array, snapshotWithin_array, Store.grid_of_next_le h]
  rfl

/-- If no more arrays can be written out within one level more, then the depth does not matter. -/
theorem snapshotWithin_of_writable_eq (h : writable st m = writable st n) (hmn : n ≤ m) (v : Value)
    (d : Datum) (hd : snapshotWithin st (m + 1) v = .ok d) :
    snapshotWithin st (n + 1) v = .ok d := by
  cases v with
  | array key =>
    by_cases hkey : key < st.grids.size
    · have hmem : key ∈ writable st n := h ▸ mem_writable.mpr ⟨hkey, d, hd⟩
      obtain ⟨-, d', hd'⟩ := mem_writable.mp hmem
      have hagain := snapshotWithin_mono (Nat.succ_le_succ hmn) hd'
      rw [hd] at hagain
      cases hagain
      exact hd'
    · rwa [snapshotWithin_of_size_le (Nat.le_of_not_lt hkey) n m]
  | _ => exact hd

/-- The number of arrays that can be written out grows until it stays the same. -/
theorem writable_eq (h : st.grids.size ≤ n) : writable st n = writable st st.grids.size := by
  have hsub : ∀ {m k : Nat}, m ≤ k → writable st m ⊆ writable st k := by
    intro m k hle
    induction hle with
    | refl => exact Finset.Subset.refl _
    | step _ ih => exact ih.trans (writable_subset _)
  have hstable : ∀ m, (writable st m).card = (writable st (m + 1)).card →
      (writable st (m + 1)).card = (writable st (m + 2)).card := by
    intro m hcard
    have heq : writable st (m + 1) = writable st m :=
      (Finset.eq_of_subset_of_card_le (writable_subset m) hcard.ge).symm
    have hback := snapshotWithin_of_writable_eq heq (Nat.le_succ m)
    refine congrArg Finset.card (Finset.Subset.antisymm (writable_subset _) fun key hkey => ?_)
    obtain ⟨hlt, d, hd⟩ := mem_writable.mp hkey
    exact mem_writable.mpr ⟨hlt, d, snapshotWithin_array_imp hback hd⟩
  have hbound : ∀ m, (writable st m).card ≤ st.grids.size := by
    intro m
    have hle := Finset.card_filter_le (Finset.range st.grids.size) fun key =>
      (snapshotWithin st (m + 1) (.array key)).isOk = true
    rwa [Finset.card_range] at hle
  have hcard := Nat.stabilises_of_monotone (f := fun m => (writable st m).card)
    (monotone_nat_of_le_succ fun m => Finset.card_le_card (writable_subset m)) hbound hstable h
  exact (Finset.eq_of_subset_of_card_le (hsub h) hcard.le).symm

/-- A value that can be written out within some depth is written out as the same datum. -/
theorem snapshot_of_within (h : snapshotWithin st n v = .ok d) : v.snapshot st = .ok d := by
  have hmore := snapshotWithin_mono (Nat.le_add_right n (st.grids.size + 1)) h
  exact snapshotWithin_of_writable_eq (writable_eq (Nat.le_add_left _ n)) (Nat.le_add_left _ n) v d
    hmore

end Value

/-- A value is written out as the datum that describes it. -/
theorem Datum.Describes.snapshot (h : d.Describes st v) : v.snapshot st = .ok d :=
  Value.snapshot_of_within (h.snapshotWithin (Nat.le_refl _))

/-! ## Making arrays anew -/

/-- A store has the arrays of another, and maybe more behind them. -/
def Store.Extends (st' st : Store) : Prop := st.grids.toList <+: st'.grids.toList

namespace Store.Extends

/-- A store extends itself. -/
theorem refl (st : Store) : st.Extends st := List.prefix_rfl

/-- Extensions compose. -/
theorem trans {st'' : Store} (h : st''.Extends st') (h' : st'.Extends st) :
    st''.Extends st := List.IsPrefix.trans h' h

/-- Adding an array extends a store. -/
theorem add (st : Store) (g : Grid) : (st.add g).Extends st := by
  unfold Extends Store.add
  rw [Array.toList_push]
  exact List.prefix_append _ _

/-- An array has the grid with which it was made. -/
theorem grid_next {g : Grid} (h : st'.Extends (st.add g)) : st'.grid st.next = g := by
  obtain ⟨rest, hrest⟩ := h
  have hget : st'.grids[st.grids.size]? = some g := by
    rw [← Array.getElem?_toList, ← hrest]
    simp [Store.add]
  unfold Store.grid Store.next
  rw [hget]
  rfl

end Store.Extends

/-- The values of data go behind those that are there already. -/
theorem Datum.storeAll_eq (ds : List Datum) (acc : Array Cell) (st : Store) :
    Datum.storeAll acc st ds =
      (acc ++ (Datum.storeAll #[] st ds).1, (Datum.storeAll #[] st ds).2) := by
  induction ds generalizing acc st with
  | nil => simp [Datum.storeAll]
  | cons d ds ih =>
    have hstep : ∀ acc, Datum.storeAll acc st (d :: ds) =
        Datum.storeAll (acc.push (some (d.store st).1)) (d.store st).2 ds := fun _ => rfl
    rw [hstep, hstep, ih, ih (#[].push _)]
    simp

/-- Values are stored one after another. -/
theorem Datum.storeAll_cons (d : Datum) (ds : List Datum) (st : Store) :
    Datum.storeAll #[] st (d :: ds) =
      (#[some (d.store st).1] ++ (Datum.storeAll #[] (d.store st).2 ds).1,
        (Datum.storeAll #[] (d.store st).2 ds).2) := by
  change Datum.storeAll #[some (d.store st).1] (d.store st).2 ds = _
  rw [Datum.storeAll_eq]

/-- There is one value for each datum. -/
theorem Datum.size_storeAll (ds : List Datum) (st : Store) :
    (Datum.storeAll #[] st ds).1.size = ds.length := by
  induction ds generalizing st with
  | nil => rfl
  | cons d ds ih =>
    rw [Datum.storeAll_cons, Array.size_append, ih, List.length_cons, Nat.add_comm]
    rfl

/-- The grid of an array whose cells are stored. -/
def Datum.storedGrid (rows cols : Nat) (cells : List Datum) (st : Store) : Grid :=
  (Grid.ofCells? rows cols (Datum.storeAll #[] st cells).1).getD .empty

/-- An array is stored after its cells. -/
theorem Datum.store_array (rows cols : Nat) (cells : List Datum) (st : Store) :
    (Datum.array rows cols cells).store st =
      (.array (Datum.storeAll #[] st cells).2.next,
        (Datum.storeAll #[] st cells).2.add (Datum.storedGrid rows cols cells st)) := rfl

/-- The cells of an array are stored row by row. -/
theorem Datum.storedGrid_eq {rows cols : Nat} {cells : List Datum}
    (h : cells.length = rows * cols) (st : Store) :
    (Datum.storedGrid rows cols cells st).rows = rows ∧
      (Datum.storedGrid rows cols cells st).cols = cols ∧
      (Datum.storedGrid rows cols cells st).cells = (Datum.storeAll #[] st cells).1 := by
  have hsize : (Datum.storeAll #[] st cells).1.size = rows * cols := by
    rw [Datum.size_storeAll, h]
  unfold Datum.storedGrid Grid.ofCells?
  rw [dif_pos hsize]
  exact ⟨rfl, rfl, rfl⟩

mutual

/-- Storing a datum adds its arrays behind those that are there. -/
theorem Datum.store_extends (d : Datum) (st : Store) : (d.store st).2.Extends st := by
  match d with
  | .integer _ => exact .refl st
  | .real _ => exact .refl st
  | .string _ => exact .refl st
  | .boolean _ => exact .refl st
  | .array rows cols cells =>
    rw [Datum.store_array]
    exact (Store.Extends.add _ _).trans (Datum.storeAll_extends cells st)

/-- Storing data adds their arrays behind those that are there. -/
theorem Datum.storeAll_extends (ds : List Datum) (st : Store) :
    (Datum.storeAll #[] st ds).2.Extends st := by
  match ds with
  | [] => exact .refl st
  | d :: ds =>
    rw [Datum.storeAll_cons]
    exact (Datum.storeAll_extends ds _).trans (d.store_extends st)

end

mutual

/-- A datum describes the value that it is stored as, also when more arrays are made. -/
theorem Datum.store_describes (d : Datum) (h : d.Shaped) (st : Store) {st' : Store}
    (hst : st'.Extends (d.store st).2) : d.Describes st' (d.store st).1 := by
  match d with
  | .integer _ => rfl
  | .real _ => rfl
  | .string _ => rfl
  | .boolean _ => rfl
  | .array rows cols cells =>
    obtain ⟨-, hlength, hcells⟩ := h
    rw [Datum.store_array] at hst ⊢
    obtain ⟨hrows, hcols, hgrid⟩ := Datum.storedGrid_eq hlength st
    refine ⟨_, rfl, ?_⟩
    rw [hst.grid_next]
    refine ⟨hrows, hcols, ?_⟩
    rw [hgrid]
    exact Datum.storeAll_describes cells hcells st (hst.trans (Store.Extends.add _ _))

/-- Data describe the values that they are stored as, also when more arrays are made. -/
theorem Datum.storeAll_describes (ds : List Datum) (h : Datum.AllShaped ds) (st : Store)
    {st' : Store} (hst : st'.Extends (Datum.storeAll #[] st ds).2) :
    Datum.DescribesAll st' ds (Datum.storeAll #[] st ds).1.toList := by
  match ds with
  | [] => rfl
  | d :: ds =>
    rw [Datum.storeAll_cons] at hst ⊢
    have hfirst := d.store_describes h.1 st (hst.trans (Datum.storeAll_extends ds _))
    refine ⟨_, _, ?_, hfirst, Datum.storeAll_describes ds h.2 _ hst⟩
    simp

end

end StackScript
