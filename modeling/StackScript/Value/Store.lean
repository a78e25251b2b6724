import StackScript.Value.Grid

/-!
# The store of arrays

Every array that was ever made has a grid in the store, found by the array's key. Keys are handed
out in order and never again.
-/

namespace StackScript

/-- The grids of all arrays made so far; the key of an array is its place here. -/
structure Store where
  /-- The grids in order of creation. -/
  grids : Array Grid
deriving DecidableEq

namespace Store

/-- The store before any array is made. -/
def empty : Store := ⟨#[]⟩

/-- The grid of an array. A key that was never handed out has an empty grid. -/
def grid (st : Store) (key : Nat) : Grid := st.grids[key]?.getD .empty

/-- The key that the next array gets. -/
def next (st : Store) : Nat := st.grids.size

/-- The store with one more array, whose key is `st.next`. -/
def add (st : Store) (g : Grid) : Store := ⟨st.grids.push g⟩

/-- The store after a cell of an array is set. -/
def setCell (st : Store) (key : Nat) (row col : Int) (v : Cell) : Except IndexError Store :=
  match (st.grid key).index? row col with
  | some i => .ok ⟨st.grids.modify key fun g => g.put i v⟩
  | none => .error ⟨row, col, (st.grid key).rows, (st.grid key).cols⟩

end Store

end StackScript
