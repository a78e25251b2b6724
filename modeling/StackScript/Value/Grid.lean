import StackScript.Value.Basic

/-!
# Grids

The contents of an array: rows and columns of cells, kept row by row. A grid has at most `2 ^ 24`
cells, and no more rows or columns than that either when it has no cells.
-/

namespace StackScript

/-- The largest number of cells of a grid, and of slots of a data frame. -/
def maxCells : Nat := 0x1000000

/-- The contents of an array. -/
structure Grid where
  /-- The number of rows. -/
  rows : Nat
  /-- The number of columns. -/
  cols : Nat
  /-- The cells, row by row. -/
  cells : Array Cell
  /-- Every row has `cols` cells. -/
  size_cells : cells.size = rows * cols
deriving DecidableEq

/-- A size that no grid has. -/
structure SizeError where
  /-- The number of rows asked for. -/
  rows : Int
  /-- The number of columns asked for. -/
  cols : Int
deriving DecidableEq

/-- The wording of a size that no grid has. -/
def SizeError.message (e : SizeError) : Bytes :=
  "array size out of range: [" ++ decimalInt e.rows ++ "," ++ decimalInt e.cols ++ "]"

/-- A place outside a grid. -/
structure IndexError where
  /-- The row asked for. -/
  row : Int
  /-- The column asked for. -/
  col : Int
  /-- The number of rows there are. -/
  rows : Nat
  /-- The number of columns there are. -/
  cols : Nat
deriving DecidableEq

/-- The wording of a place outside a grid. -/
def IndexError.message (e : IndexError) : Bytes :=
  "array index out of range: [" ++ decimalInt e.row ++ "," ++ decimalInt e.col ++ "] in [" ++
    decimal e.rows ++ "," ++ decimal e.cols ++ "]"

namespace Grid

/-- A grid with every cell set to `fill`. -/
def filled (rows cols : Nat) (fill : Cell) : Grid where
  rows := rows
  cols := cols
  cells := Array.replicate (rows * cols) fill
  size_cells := Array.size_replicate

/-- The grid without cells. -/
def empty : Grid := filled 0 0 none

/-- Whether a grid may have this many rows and columns. The number of its cells is not multiplied
out: there may be as many rows as the columns go into the largest number of cells. -/
def sizeAllowed (rows cols : Int) : Bool :=
  0 ≤ rows && 0 ≤ cols && rows ≤ maxCells && cols ≤ maxCells &&
    (cols == 0 || rows ≤ (maxCells : Int) / cols)

/-- A grid of the given size with every cell set to `fill`. -/
def make (rows cols : Int) (fill : Cell) : Except SizeError Grid :=
  if sizeAllowed rows cols then .ok (filled rows.toNat cols.toNat fill) else .error ⟨rows, cols⟩

/-- The place of a row and a column among the cells. -/
def index? (g : Grid) (row col : Int) : Option Nat :=
  if 0 ≤ row ∧ row < g.rows ∧ 0 ≤ col ∧ col < g.cols then
    some (row.toNat * g.cols + col.toNat)
  else none

/-- The grid with another cell at a place among the cells. -/
def put (g : Grid) (i : Nat) (v : Cell) : Grid :=
  { g with cells := g.cells.setIfInBounds i v, size_cells := by simp [g.size_cells] }

/-- The cell at a row and a column. -/
def get (g : Grid) (row col : Int) : Except IndexError Cell :=
  match g.index? row col with
  | some i => .ok (g.cells.getD i none)
  | none => .error ⟨row, col, g.rows, g.cols⟩

/-- The size of a grid as text. -/
def sizeText (g : Grid) : Bytes :=
  "[" ++ decimal g.rows ++ "," ++ decimal g.cols ++ "]"

/-- The grid with the given cells, row by row; there must be one for each place. -/
def ofCells? (rows cols : Nat) (cells : Array Cell) : Option Grid :=
  if h : cells.size = rows * cols then some ⟨rows, cols, cells, h⟩ else none

end Grid

end StackScript
