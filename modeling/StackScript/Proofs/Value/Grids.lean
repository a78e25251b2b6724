import StackScript.Proofs.Number.Checked
import StackScript.Value.Store

/-!
# Sizes and places of grids

The size of a grid is checked by a division, which says the same as the product of rows and columns
and cannot overflow (`sizeAllowed_iff`). A row and a column of a grid have a place among its cells;
different ones have different places, and the place is found without overflow as well. So setting a
cell changes what is read there and nowhere else (`get_put`).
-/

namespace StackScript.Grid

variable {rows cols row col row' col' : Int} {fill : Cell} {g : Grid} {i : Nat}

/-! ## Sizes -/

/-- A grid may have at most `maxCells` rows, columns and cells. -/
theorem sizeAllowed_iff : sizeAllowed rows cols = true ↔
    0 ≤ rows ∧ 0 ≤ cols ∧ rows ≤ maxCells ∧ cols ≤ maxCells ∧ rows * cols ≤ maxCells := by
  have hcells : 0 ≤ rows → 0 ≤ cols → ((cols = 0 ∨ rows ≤ (maxCells : Int) / cols) ↔
      rows * cols ≤ maxCells) := by
    intro hrows hcols
    rcases Int.lt_or_eq_of_le hcols with hpos | rfl
    · rw [Int.le_ediv_iff_mul_le hpos]
      exact or_iff_right (Int.ne_of_gt hpos)
    · rw [Int.mul_zero]
      exact iff_of_true (.inl rfl) (by decide)
  simp only [sizeAllowed, Bool.and_eq_true, Bool.or_eq_true, decide_eq_true_eq, beq_iff_eq,
    and_assoc]
  constructor
  · rintro ⟨hrows, hcols, hmaxRows, hmaxCols, harea⟩
    exact ⟨hrows, hcols, hmaxRows, hmaxCols, (hcells hrows hcols).mp harea⟩
  · rintro ⟨hrows, hcols, hmaxRows, hmaxCols, harea⟩
    exact ⟨hrows, hcols, hmaxRows, hmaxCols, (hcells hrows hcols).mpr harea⟩

/-- A grid is made if its size is allowed. -/
theorem make_eq_ok : make rows cols fill = .ok g ↔
    sizeAllowed rows cols = true ∧ g = filled rows.toNat cols.toNat fill := by
  unfold make
  split
  · rename_i hsize
    simp [hsize, eq_comm]
  · rename_i hsize
    simp [hsize]

/-! ## Places -/

/-- A row and a column have a place if the grid has them, and places are counted row by row. -/
theorem index?_eq_some : g.index? row col = some i ↔
    (0 ≤ row ∧ row < g.rows ∧ 0 ≤ col ∧ col < g.cols) ∧ (i : Int) = row * g.cols + col := by
  unfold index?
  split
  · rename_i hrange
    obtain ⟨r, rfl⟩ := Int.eq_ofNat_of_zero_le hrange.1
    obtain ⟨c, rfl⟩ := Int.eq_ofNat_of_zero_le hrange.2.2.1
    have hplace : (i : Int) = r * g.cols + c ↔ r * g.cols + c = i := by
      rw [eq_comm]
      exact_mod_cast Iff.rfl
    rw [hplace, Option.some_inj]
    exact (and_iff_right hrange).symm
  · rename_i hrange
    exact iff_of_false (by simp) fun h => hrange h.1

/-- A row or a column that the grid does not have has no place. -/
theorem index?_eq_none : g.index? row col = none ↔
    ¬ (0 ≤ row ∧ row < g.rows ∧ 0 ≤ col ∧ col < g.cols) := by
  unfold index?
  split
  · rename_i hrange
    exact iff_of_false (by simp) fun h => h hrange
  · rename_i hrange
    exact iff_of_true rfl hrange

/-- A place in a grid is one of its cells. -/
theorem index?_lt (h : g.index? row col = some i) : i < g.cells.size := by
  unfold Grid.index? at h
  split at h
  · rename_i hin
    obtain ⟨hrow, hrow', hcol, hcol'⟩ := hin
    cases h
    rw [g.size_cells]
    calc row.toNat * g.cols + col.toNat
        < row.toNat * g.cols + g.cols := by omega
      _ = (row.toNat + 1) * g.cols := (Nat.succ_mul ..).symm
      _ ≤ g.rows * g.cols := Nat.mul_le_mul_right _ (by omega)
  · cases h

/-- The row is the quotient of its place by the number of columns, and the column is the rest. -/
theorem ediv_emod_index? (h : g.index? row col = some i) :
    (i : Int) / g.cols = row ∧ (i : Int) % g.cols = col := by
  obtain ⟨⟨-, -, hcol, hcols⟩, hi⟩ := index?_eq_some.mp h
  have hsum : col + g.cols * row = i := by rw [hi, Int.mul_comm, Int.add_comm]
  exact (Int.ediv_emod_unique (Int.lt_of_le_of_lt hcol hcols)).mpr ⟨hsum, hcol, hcols⟩

/-- Different rows or columns have different places. -/
theorem index?_inj (h : g.index? row col = some i) (h' : g.index? row' col' = some i) :
    row = row' ∧ col = col' := by
  obtain ⟨hrow, hcol⟩ := ediv_emod_index? h
  obtain ⟨hrow', hcol'⟩ := ediv_emod_index? h'
  exact ⟨hrow.symm.trans hrow', hcol.symm.trans hcol'⟩

/-- The number of cells is multiplied out without overflow once the size is allowed. -/
theorem mul_size {rows cols : Int64} (h : sizeAllowed rows.toInt cols.toInt = true) :
    Checked.mul rows cols = some (.ofNat (rows.toInt.toNat * cols.toInt.toNat)) := by
  obtain ⟨hrows, hcols, -, -, harea⟩ := sizeAllowed_iff.mp h
  obtain ⟨r, hr⟩ := Int.eq_ofNat_of_zero_le hrows
  obtain ⟨c, hc⟩ := Int.eq_ofNat_of_zero_le hcols
  have hcells : r * c ≤ maxCells := by
    rw [hr, hc] at harea
    exact_mod_cast harea
  unfold Checked.mul
  rw [hr, hc, ← Int.natCast_mul]
  exact Checked.ofInt_natCast (Nat.lt_of_le_of_lt hcells (by decide))

/-- The place of a row and a column is found without overflow. -/
theorem add_mul_index? {row col cols : Int64} (hcols : cols.toInt = g.cols)
    (hsize : g.cells.size ≤ maxCells) (h : g.index? row.toInt col.toInt = some i) :
    (Checked.mul row cols).bind (fun start => Checked.add start col) = some (.ofNat i) := by
  obtain ⟨⟨hrow, -, hcol, -⟩, hi⟩ := index?_eq_some.mp h
  have hlt := index?_lt h
  have hmax : maxCells < 0x8000000000000000 := by decide
  have hstart : 0 ≤ row.toInt * g.cols := Int.mul_nonneg hrow (Int.natCast_nonneg _)
  obtain ⟨hmul, estart⟩ := Checked.mul_eq rfl hcols (m := row.toInt) (by unfold FitsWord; omega)
  refine Option.bind_eq_some_iff.mpr ⟨_, hmul, ?_⟩
  unfold Checked.add
  rw [estart, ← hi]
  exact Checked.ofInt_natCast (by omega)

/-! ## Reading and setting -/

/-- A cell inside a grid is read. -/
theorem get_of_index? (h : g.index? row col = some i) :
    g.get row col = .ok (g.cells.getD i none) := by
  unfold get
  rw [h]

/-- A cell outside a grid is refused. -/
theorem get_of_outside (h : g.index? row col = none) :
    g.get row col = .error ⟨row, col, g.rows, g.cols⟩ := by
  unfold get
  rw [h]

/-- Every cell of a new grid holds the fill. -/
theorem get_filled {rows cols : Nat} (h : (filled rows cols fill).index? row col = some i) :
    (filled rows cols fill).get row col = .ok fill := by
  have hlt : i < (Array.replicate (rows * cols) fill).size := index?_lt h
  rw [get_of_index? h]
  show Except.ok ((Array.replicate (rows * cols) fill).getD i none) = _
  rw [Array.getD_eq_getD_getElem?, Array.getElem?_eq_getElem hlt, Array.getElem_replicate]
  rfl

/-- A cell that is set is read as what it was set to, and all others as before. -/
theorem get_put (h : g.index? row col = some i) (j : Nat) (v : Cell) :
    (g.put j v).get row col = if i = j then .ok v else g.get row col := by
  have hlt := index?_lt h
  have hplace : (g.put j v).index? row col = some i := h
  rw [get_of_index? hplace, get_of_index? h]
  show Except.ok ((g.cells.setIfInBounds j v).getD i none) = _
  rw [Array.getD_eq_getD_getElem?, Array.getElem?_setIfInBounds]
  by_cases hij : i = j
  · rw [if_pos hij, if_pos hij.symm, if_pos (hij ▸ hlt)]
    rfl
  · rw [if_neg hij, if_neg (Ne.symm hij), Array.getD_eq_getD_getElem?]

end StackScript.Grid

namespace StackScript.Store

variable {st : Store}

/-- A key that is not taken has no cells. -/
theorem grid_of_next_le {key : Nat} (h : st.next ≤ key) : st.grid key = .empty := by
  unfold Store.grid
  rw [Array.getElem?_eq_none h]
  rfl

/-- A change of one array does not concern the others. -/
theorem grid_modify (st : Store) (key other : Nat) {f : Grid → Grid} :
    Store.grid ⟨st.grids.modify key f⟩ other =
      if key = other ∧ other < st.next then f (st.grid other) else st.grid other := by
  unfold Store.grid Store.next
  rw [Array.getElem?_modify]
  by_cases hkey : key = other
  · rw [if_pos hkey]
    by_cases hlt : other < st.grids.size
    · rw [if_pos ⟨hkey, hlt⟩, Array.getElem?_eq_getElem hlt]
      rfl
    · rw [if_neg fun h => hlt h.2, Array.getElem?_eq_none (Nat.le_of_not_lt hlt)]
      rfl
  · rw [if_neg hkey, if_neg fun h => hkey h.1]

end StackScript.Store
