import StackScript.Proofs.Machine.Ensures
import StackScript.Proofs.Value.Renaming

/-!
# Arrays keep what was last set

The machine sets cells of arrays one after the other, and some of its attempts fail. Each attempt
either sets the one cell at its row and column, or fails and leaves the state as it was
(`State.grid_afterSet`). So after any number of attempts a cell holds what the last one at its row
and column has set it to, or the fill (`State.get_afterSets`).
-/

namespace StackScript

/-- An attempt to set a cell of an array. -/
structure SetCall where
  /-- The array. -/
  key : Nat
  /-- The row of the cell. -/
  row : Int64
  /-- The column of the cell. -/
  col : Int64
  /-- What the cell is to be set to. -/
  value : Cell

namespace SetCall

/-- What the machine does. -/
def attempt (c : SetCall) : Exec Unit := Exec.setCell c.key c.row.toInt c.col.toInt c.value

/-- The attempt is at a row and a column of an array. -/
def isAt (key : Nat) (row col : Int64) (c : SetCall) : Bool :=
  c.key == key && c.row == row && c.col == col

/-- What the last of some attempts at a row and a column of an array sets the cell there to. -/
def last? (key : Nat) (row col : Int64) (calls : List SetCall) : Option Cell :=
  (calls.reverse.find? (isAt key row col)).map SetCall.value

end SetCall

/-- The state behind an attempt to set a cell, also if that fails. -/
def State.afterSet (s : State) (c : SetCall) : State :=
  match c.attempt s with
  | .ok _ s' => s'
  | .error _ s' => s'

/-- The state behind attempts to set cells. -/
def State.afterSets (s : State) (calls : List SetCall) : State := calls.foldl State.afterSet s

variable {s : State} {c : SetCall} {key i : Nat} {row col : Int64}

/-! ## One attempt -/

/-- An attempt at a row and a column without a place fails, and leaves the state as it was. -/
theorem SetCall.attempt_of_outside
    (h : (s.world.store.grid c.key).index? c.row.toInt c.col.toInt = none) :
    ∃ e, c.attempt s = .error e s := by
  obtain ⟨place, stack, frame, callers, store, globals, console, generator, now⟩ := s
  unfold attempt Exec.setCell
  simp only at h ⊢
  rw [h]
  exact ⟨_, rfl⟩

/-- An attempt at a row and a column that have a place sets the cell there. -/
theorem SetCall.attempt_of_index?
    (h : (s.world.store.grid c.key).index? c.row.toInt c.col.toInt = some i) :
    ∃ s', c.attempt s = .ok () s' ∧
      s'.world.store = ⟨s.world.store.grids.modify c.key fun g => g.put i c.value⟩ := by
  obtain ⟨place, stack, frame, callers, store, globals, console, generator, now⟩ := s
  unfold attempt Exec.setCell
  simp only at h ⊢
  rw [h]
  exact ⟨_, rfl, rfl⟩

namespace State

/-- A call outside the array changes nothing. -/
theorem afterSet_of_outside
    (h : (s.world.store.grid c.key).index? c.row.toInt c.col.toInt = none) : s.afterSet c = s := by
  obtain ⟨e, hfail⟩ := SetCall.attempt_of_outside h
  unfold afterSet
  rw [hfail]

/-- A call inside the array sets a cell. -/
theorem store_afterSet
    (h : (s.world.store.grid c.key).index? c.row.toInt c.col.toInt = some i) :
    (s.afterSet c).world.store = ⟨s.world.store.grids.modify c.key fun g => g.put i c.value⟩ := by
  obtain ⟨s', hset, hstore⟩ := SetCall.attempt_of_index? h
  unfold afterSet
  rw [hset]
  exact hstore

/-- An attempt sets the cell of its array at its row and column, if they have a place, and changes
nothing else of the arrays. -/
theorem grid_afterSet (s : State) (c : SetCall) (key : Nat) :
    (s.afterSet c).world.store.grid key =
      if c.key = key then
        ((s.world.store.grid key).index? c.row.toInt c.col.toInt).elim (s.world.store.grid key)
          fun i => (s.world.store.grid key).put i c.value
      else s.world.store.grid key := by
  cases hplace : (s.world.store.grid c.key).index? c.row.toInt c.col.toInt with
  | none =>
    rw [afterSet_of_outside hplace]
    by_cases hkey : c.key = key
    · rw [if_pos hkey, ← hkey, hplace]
      rfl
    · rw [if_neg hkey]
  | some i =>
    -- An array with a cell is one that was made.
    have hmade : c.key < s.world.store.next := by
      refine Nat.lt_of_not_le fun hle => ?_
      have hcell := Grid.index?_lt hplace
      rw [Store.grid_of_next_le hle] at hcell
      exact Nat.not_lt_zero i hcell
    rw [store_afterSet hplace, Store.grid_modify]
    by_cases hkey : c.key = key
    · rw [if_pos ⟨hkey, hkey ▸ hmade⟩, if_pos hkey, ← hkey, hplace]
      rfl
    · rw [if_neg fun h => hkey h.1, if_neg hkey]

/-- An attempt leaves the places of rows and columns as they are. -/
theorem index?_afterSet (s : State) (c : SetCall) (key : Nat) (row col : Int) :
    ((s.afterSet c).world.store.grid key).index? row col =
      (s.world.store.grid key).index? row col := by
  rw [grid_afterSet]
  split
  · cases (s.world.store.grid key).index? c.row.toInt c.col.toInt <;> rfl
  · rfl

/-- An attempt changes what is read at its own row and column, and nowhere else. -/
theorem get_afterSet (c : SetCall)
    (h : (s.world.store.grid key).index? row.toInt col.toInt = some i) :
    ((s.afterSet c).world.store.grid key).get row.toInt col.toInt =
      if c.isAt key row col then .ok c.value
      else (s.world.store.grid key).get row.toInt col.toInt := by
  rw [grid_afterSet]
  by_cases hkey : c.key = key
  · rw [if_pos hkey]
    by_cases hplace : c.row = row ∧ c.col = col
    · -- The attempt is at this place.
      have hat : c.isAt key row col = true := by simp [SetCall.isAt, hkey, hplace]
      rw [hat, hplace.1, hplace.2, h, if_pos rfl]
      exact (Grid.get_put h i c.value).trans (if_pos rfl)
    · have hat : c.isAt key row col = false := by simpa [SetCall.isAt, hkey] using hplace
      rw [hat]
      cases hother : (s.world.store.grid key).index? c.row.toInt c.col.toInt with
      | none => rfl
      | some j =>
        -- Another row or column has another place.
        have hne : i ≠ j := by
          rintro rfl
          obtain ⟨hrow, hcol⟩ := Grid.index?_inj hother h
          exact hplace ⟨Int64.toInt_inj.mp hrow, Int64.toInt_inj.mp hcol⟩
        exact (Grid.get_put h j c.value).trans (if_neg hne)
  · have hat : c.isAt key row col = false := by simp [SetCall.isAt, hkey]
    rw [if_neg hkey, hat]
    rfl

/-! ## Many attempts -/

/-- Calls keep the places of an array. -/
theorem index?_afterSets (calls : List SetCall) (s : State) (key : Nat) (row col : Int) :
    ((s.afterSets calls).world.store.grid key).index? row col =
      (s.world.store.grid key).index? row col := by
  induction calls generalizing s with
  | nil => rfl
  | cons c calls ih => exact (ih (s.afterSet c)).trans (s.index?_afterSet c key row col)

end State

/-- The last attempt at a place is one of the later ones, or else the first. -/
theorem SetCall.last?_cons (c : SetCall) (calls : List SetCall) :
    last? key row col (c :: calls) =
      (last? key row col calls).or (if c.isAt key row col then some c.value else none) := by
  unfold last?
  rw [List.reverse_cons, List.find?_append, Option.map_or]
  congr 1
  cases hat : c.isAt key row col <;> simp [hat]

/-- A cell holds what the last attempt at its row and column has set it to, or what it held before
all of them. -/
theorem State.get_afterSets {calls : List SetCall} {v : Cell}
    (h : (s.world.store.grid key).index? row.toInt col.toInt = some i)
    (hv : (s.world.store.grid key).get row.toInt col.toInt = .ok v) :
    ((s.afterSets calls).world.store.grid key).get row.toInt col.toInt =
      .ok ((SetCall.last? key row col calls).getD v) := by
  -- Over the attempts, from the first; what is read before them all changes with it.
  induction calls generalizing s v with
  | nil => exact hv
  | cons c calls ih =>
    have hplace := (s.index?_afterSet c key row.toInt col.toInt).trans h
    have hnext : ((s.afterSet c).world.store.grid key).get row.toInt col.toInt =
        .ok ((if c.isAt key row col then some c.value else none).getD v) := by
      rw [get_afterSet c h, hv]
      split <;> rfl
    have hrest := ih hplace hnext
    rw [SetCall.last?_cons, Option.getD_or]
    exact hrest

/-! ## Instructions that fail -/

namespace Exec

variable {α : Type} {st : Store}

/-- A computation that leaves the arrays of a store as they are if it fails. -/
abbrev FailsIdle (st : Store) (x : Exec α) : Prop :=
  Ensures (fun s => s.world.store = st) (fun _ _ => True) (fun _ s => s.world.store = st) x

/-- Setting a cell changes nothing if it fails. -/
theorem setCell_failsIdle (key : Nat) (row col : Int) (v : Cell) :
    FailsIdle st (setCell key row col v) := by
  rintro ⟨place, stack, frame, callers, store, globals, console, generator, now⟩ hs
  unfold setCell
  dsimp only
  cases (store.grid key).index? row col with
  | none => exact hs
  | some i => trivial

end Exec

open Exec in
/-- An instruction that is to read or to set a cell and fails leaves the arrays as they are. -/
theorem store_of_step_error {p : Program} {hosts : Array HostFunction} {i : Instruction}
    (hop : i.op = .readArray ∨ i.op = .writeArray) {s s' : State} {f : Fault}
    (h : step p hosts i s = .error f s') : s'.world.store = s.world.store := by
  suffices hstep : FailsIdle s.world.store (step p hosts i) by
    have hend := hstep s rfl
    rw [h] at hend
    exact hend
  have hfree : State.StackFree fun t => t.world.store = s.world.store := fun _ _ ht => ht
  unfold step
  rcases hop with hop | hop
  · rw [hop]
    refine (Always.element hfree _).bind ?_
    rintro ⟨key, row, col⟩
    refine Ensures.get fun t ht => ?_
    cases (t.world.store.grid key).get row col with
    | ok c => trivial
    | error e => exact ht
  · rw [hop]
    refine (Always.pop hfree).bind fun v => (Always.element hfree _).bind ?_
    rintro ⟨key, row, col⟩
    exact (setCell_failsIdle key row col v).bind fun _ => Ensures.modify fun _ _ => trivial

/-! ## From making an array to reading it -/

/-- A row and a column that an array of the given size has. -/
def InArray (rows cols row col : Int64) : Prop :=
  0 ≤ row.toInt ∧ row.toInt < rows.toInt ∧ 0 ≤ col.toInt ∧ col.toInt < cols.toInt

/-- How an array of some size stands in a state behind attempts to set cells, when all its cells
held `fill` before them. -/
structure ArrayKept (rows cols : Int64) (fill : Cell) (key : Nat) (calls : List SetCall)
    (s : State) : Prop where
  /-- A cell is read as what it was last set to, or else as the fill. -/
  reads : ∀ row col : Int64, InArray rows cols row col →
    (s.world.store.grid key).get row.toInt col.toInt =
      .ok ((SetCall.last? key row col calls).getD fill)
  /-- Nothing else can be read. -/
  refuses : ∀ row col : Int64, ¬ InArray rows cols row col → ∃ e,
    (s.world.store.grid key).get row.toInt col.toInt = .error e
  /-- A cell can be set. -/
  sets : ∀ (row col : Int64) (v : Cell), InArray rows cols row col → ∃ s',
    SetCall.attempt ⟨key, row, col, v⟩ s = .ok () s'
  /-- Nothing else can be set, and the attempt changes nothing. -/
  unset : ∀ (row col : Int64) (v : Cell), ¬ InArray rows cols row col → ∃ f,
    SetCall.attempt ⟨key, row, col, v⟩ s = .error f s
  /-- The place of a cell is found without overflow, and is one of the cells. -/
  place : ∀ row col : Int64, InArray rows cols row col → ∃ i,
    (s.world.store.grid key).index? row.toInt col.toInt = some i ∧
      i < (s.world.store.grid key).cells.size ∧
      (Checked.mul row cols).bind (fun start => Checked.add start col) = some (.ofNat i)
  /-- Different rows and columns have different places. -/
  apart : ∀ (row col row' col' : Int64) (i : Nat),
    (s.world.store.grid key).index? row.toInt col.toInt = some i →
      (s.world.store.grid key).index? row'.toInt col'.toInt = some i → row = row' ∧ col = col'
  /-- An instruction that is to read or to set a cell and fails leaves all arrays as they are. -/
  failing : ∀ (p : Program) (hosts : Array HostFunction) (i : Instruction) (f : Fault)
    (s' : State), i.op = .readArray ∨ i.op = .writeArray → step p hosts i s = .error f s' →
      s'.world.store = s.world.store

namespace Grid

variable {rows cols : Int64} {fill : Cell} {g : Grid}

/-- The size of a grid that is made is the size that was asked for. -/
theorem size_of_make (hg : make rows.toInt cols.toInt fill = .ok g) :
    (g.rows : Int) = rows.toInt ∧ (g.cols : Int) = cols.toInt ∧
      (g.cells.size : Int) = rows.toInt * cols.toInt := by
  obtain ⟨hsize, rfl⟩ := make_eq_ok.mp hg
  obtain ⟨hrows, hcols, -⟩ := sizeAllowed_iff.mp hsize
  have hr : ((rows.toInt.toNat : Nat) : Int) = rows.toInt := Int.toNat_of_nonneg hrows
  have hc : ((cols.toInt.toNat : Nat) : Int) = cols.toInt := Int.toNat_of_nonneg hcols
  refine ⟨hr, hc, ?_⟩
  rw [size_cells, Int.natCast_mul]
  exact congrArg₂ (· * ·) hr hc

/-- The rows and columns of a grid that is made are those that have a place in it. -/
theorem inArray_iff (hg : make rows.toInt cols.toInt fill = .ok g) (row col : Int64) :
    InArray rows cols row col ↔ ∃ i, g.index? row.toInt col.toInt = some i := by
  obtain ⟨hrows, hcols, -⟩ := size_of_make hg
  unfold InArray
  rw [← hrows, ← hcols]
  constructor
  · intro hrange
    refine Option.ne_none_iff_exists'.mp fun hnone => ?_
    exact index?_eq_none.mp hnone hrange
  · rintro ⟨i, hi⟩
    exact (index?_eq_some.mp hi).1

end Grid

/-- An array that was made before some attempts to set cells. -/
theorem ArrayKept.of_make {rows cols : Int64} {fill : Cell} {g : Grid}
    (hg : Grid.make rows.toInt cols.toInt fill = .ok g) {st : Store}
    (hs : s.world.store = st.add g) (calls : List SetCall) :
    ArrayKept rows cols fill st.next calls (s.afterSets calls) := by
  have hgrid : s.world.store.grid st.next = g := by rw [hs, Store.grid_add_next]
  -- Setting cells changes no size, so the places of cells are those of the new array.
  have hindex (row col : Int64) :
      ((s.afterSets calls).world.store.grid st.next).index? row.toInt col.toInt =
        g.index? row.toInt col.toInt := by
    rw [State.index?_afterSets, hgrid]
  have houtside {row col : Int64} (h : ¬ InArray rows cols row col) :
      ((s.afterSets calls).world.store.grid st.next).index? row.toInt col.toInt = none := by
    rw [hindex, Option.eq_none_iff_forall_ne_some]
    exact fun i hi => h ((Grid.inArray_iff hg row col).mpr ⟨i, hi⟩)
  constructor
  case reads =>
    intro row col hin
    obtain ⟨i, hi⟩ := (Grid.inArray_iff hg row col).mp hin
    refine State.get_afterSets (i := i) (by rw [hgrid, hi]) ?_
    obtain ⟨-, rfl⟩ := Grid.make_eq_ok.mp hg
    rw [hgrid, Grid.get_filled hi]
  case refuses =>
    intro row col hout
    exact ⟨_, Grid.get_of_outside (houtside hout)⟩
  case sets =>
    intro row col v hin
    obtain ⟨i, hi⟩ := (Grid.inArray_iff hg row col).mp hin
    obtain ⟨s', hset, -⟩ := SetCall.attempt_of_index? (c := ⟨st.next, row, col, v⟩)
      ((hindex row col).trans hi)
    exact ⟨s', hset⟩
  case unset =>
    intro row col v hout
    exact SetCall.attempt_of_outside (c := ⟨st.next, row, col, v⟩) (houtside hout)
  case place =>
    intro row col hin
    obtain ⟨i, hi⟩ := (Grid.inArray_iff hg row col).mp hin
    obtain ⟨-, hcols, hcells⟩ := Grid.size_of_make hg
    obtain ⟨hsize, -⟩ := Grid.make_eq_ok.mp hg
    obtain ⟨-, -, -, -, harea⟩ := Grid.sizeAllowed_iff.mp hsize
    have hplace := (hindex row col).trans hi
    -- The product of the sizes is small, so that it is the same with and without overflow.
    have hmax : g.cells.size ≤ maxCells := by exact_mod_cast hcells ▸ harea
    exact ⟨i, hplace, Grid.index?_lt hplace, Grid.add_mul_index? hcols.symm hmax hi⟩
  case apart =>
    intro row col row' col' i h h'
    obtain ⟨hrow, hcol⟩ := Grid.index?_inj h h'
    exact ⟨Int64.toInt_inj.mp hrow, Int64.toInt_inj.mp hcol⟩
  case failing =>
    intro p hosts i f s' hop h
    exact store_of_step_error hop h

/-- Arrays of at most `0x1000000` rows, columns and cells can be made, and no others. All cells of a
new array hold the fill. After any attempts to set cells, of this array and of others, each cell of
it holds what was last set there, or else the fill; rows and columns outside it can neither be read
nor set, and an attempt to do so changes nothing. -/
theorem array_keeps_last_set (rows cols : Int64) (fill : Cell) :
    ((∃ g, Grid.make rows.toInt cols.toInt fill = .ok g) ↔
      0 ≤ rows.toInt ∧ rows.toInt ≤ 0x1000000 ∧ 0 ≤ cols.toInt ∧ cols.toInt ≤ 0x1000000 ∧
        rows.toInt * cols.toInt ≤ 0x1000000) ∧
    ∀ g, Grid.make rows.toInt cols.toInt fill = .ok g →
      (g.cells.size : Int) = rows.toInt * cols.toInt ∧ (∀ c ∈ g.cells, c = fill) ∧
        Checked.mul rows cols = some (.ofNat g.cells.size) ∧
      ∀ (st : Store) (s : State), s.world.store = st.add g → ∀ calls : List SetCall,
        ArrayKept rows cols fill st.next calls (s.afterSets calls) := by
  constructor
  · constructor
    · rintro ⟨g, hg⟩
      obtain ⟨hsize, -⟩ := Grid.make_eq_ok.mp hg
      obtain ⟨hrows, hcols, hmaxRows, hmaxCols, harea⟩ := Grid.sizeAllowed_iff.mp hsize
      exact ⟨hrows, hmaxRows, hcols, hmaxCols, harea⟩
    · rintro ⟨hrows, hmaxRows, hcols, hmaxCols, harea⟩
      have hsize := Grid.sizeAllowed_iff.mpr ⟨hrows, hcols, hmaxRows, hmaxCols, harea⟩
      exact ⟨_, Grid.make_eq_ok.mpr ⟨hsize, rfl⟩⟩
  · intro g hg
    obtain ⟨-, -, hcells⟩ := Grid.size_of_make hg
    refine ⟨hcells, ?_, ?_, fun st s hs calls => .of_make hg hs calls⟩
    · obtain ⟨-, rfl⟩ := Grid.make_eq_ok.mp hg
      exact fun c hc => Array.eq_of_mem_replicate hc
    · obtain ⟨hsize, rfl⟩ := Grid.make_eq_ok.mp hg
      rw [Grid.mul_size hsize, Grid.size_cells]
      rfl

/-- Attempts on an array of two rows and three columns. The cell in its lower right corner is set
twice; then come rows and columns outside, which would lead to the same place if that were found
without a look at the size, the last of them with an overflow. -/
def cornerSets : List SetCall :=
  [⟨0, 1, 2, some (.integer 4)⟩, ⟨0, 1, 2, some (.integer 5)⟩, ⟨0, 0, 5, some (.integer 6)⟩,
    ⟨0, 2, -1, some (.integer 7)⟩,
    ⟨0, 0x4000000000000000, 0x4000000000000005, some (.integer 8)⟩,
    ⟨1, 1, 2, some (.integer 9)⟩]

/-- A corner keeps its last value. -/
theorem array_keeps_last_set_corner :
    ∃ g, Grid.make 2 3 (some (.boolean true)) = .ok g ∧
      ArrayKept 2 3 (some (.boolean true)) 0 cornerSets
        ((State.start 0 { store := Store.empty.add g }).afterSets cornerSets) ∧
      SetCall.last? 0 1 2 cornerSets = some (some (.integer 5)) ∧
      SetCall.last? 0 0 2 cornerSets = none := by
  obtain ⟨g, hg⟩ := (array_keeps_last_set 2 3 (some (.boolean true))).1.mpr (by decide)
  obtain ⟨-, -, -, hkept⟩ := (array_keeps_last_set 2 3 (some (.boolean true))).2 g hg
  exact ⟨g, hg, hkept Store.empty _ rfl cornerSets, by decide, by decide⟩

end StackScript
