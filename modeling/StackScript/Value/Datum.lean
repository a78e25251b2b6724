import StackScript.Value.Store

/-!
# Data

A datum is a value written out: an array with its cells in place of a key. Files hold data.
`Value.snapshot` reads a value off the store, which fails for a value that has a missing cell or
contains itself, and `Datum.store` makes the arrays of a datum anew.
-/

namespace StackScript

/-- A value with the contents of its arrays. -/
inductive Datum
  | integer (n : Int64)
  | real (x : Binary64)
  | string (s : Bytes)
  | boolean (b : Bool)
  | array (rows cols : Nat) (cells : List Datum)

/-- Why a value cannot be written out. -/
inductive Gap
  /-- There is no value, or a cell of an array holds none. -/
  | missing
  /-- An array contains itself. -/
  | endless
deriving DecidableEq

/-- The datum of a value whose arrays are nested less than `depth` deep. -/
def Value.snapshotWithin (st : Store) : Nat → Value → Except Gap Datum
  | _, .integer n => .ok (.integer n)
  | _, .real x => .ok (.real x)
  | _, .string s => .ok (.string s)
  | _, .boolean b => .ok (.boolean b)
  | 0, .array _ => .error .endless
  | depth + 1, .array key => do
    let g := st.grid key
    let cells ← g.cells.toList.mapM fun
      | some v => v.snapshotWithin st depth
      | none => .error .missing
    return .array g.rows g.cols cells

/-- The datum of a value. Arrays nested deeper than there are arrays contain themselves. -/
def Value.snapshot (st : Store) (v : Value) : Except Gap Datum :=
  v.snapshotWithin st (st.grids.size + 1)

/-- The datum of a cell. -/
def Cell.snapshot (st : Store) : Cell → Except Gap Datum
  | some v => v.snapshot st
  | none => .error .missing

mutual

/-- The value of a datum, and the store with its arrays. -/
def Datum.store (st : Store) : Datum → Value × Store
  | .integer n => (.integer n, st)
  | .real x => (.real x, st)
  | .string s => (.string s, st)
  | .boolean b => (.boolean b, st)
  | .array rows cols cells =>
    let (values, st) := Datum.storeAll #[] st cells
    (.array st.next, st.add ((Grid.ofCells? rows cols values).getD .empty))

/-- The values of a list of data behind those in `acc`, and the store with their arrays. -/
def Datum.storeAll (acc : Array Cell) (st : Store) : List Datum → Array Cell × Store
  | [] => (acc, st)
  | d :: ds =>
    let (v, st) := d.store st
    Datum.storeAll (acc.push (some v)) st ds

end

end StackScript
