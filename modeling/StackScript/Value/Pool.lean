import StackScript.Value.Basic

/-!
# Constant pools

The table of constants that a program refers to by index. A constant is entered once: adding it
again gives the index of the entry that is there. An index beside the entries tells where a constant
stands, so that they are not looked through. Every pool begins with the truth values and the
integers from zero to nine.
-/

namespace StackScript

/-- Whether two constants are one key of an index: they are equal, where real numbers compare
numerically. The two zeros are one key, and a NaN is not even the same key as itself. -/
def Cell.sameKey : Cell → Cell → Bool
  | some (.real x), some (.real y) => x.eq y
  | a, b => a == b

namespace Pool

/-- The place that an index has for a constant. Of one key the binding made last counts. -/
def lookup (index : List (Cell × Nat)) (v : Cell) : Option Nat :=
  (index.find? fun binding => binding.1.sameKey v).map Prod.snd

/-- Entries and their index as adding constants builds them: a constant that the index does not have
is entered behind the others, and the index is told its place. -/
inductive Built : Array Cell → List (Cell × Nat) → Prop
  | empty : Built #[] []
  | enter {entries : Array Cell} {index : List (Cell × Nat)} {v : Cell}
      (h : Built entries index) (hv : lookup index v = none) :
      Built (entries.push v) ((v, entries.size) :: index)

end Pool

/-- A table of constants. -/
structure Pool where
  /-- The entries in index order. -/
  entries : Array Cell
  /-- The places of the entries by key. -/
  index : List (Cell × Nat)
  /-- Both were built together. -/
  built : Pool.Built entries index

namespace Pool

/-- The pool without entries. -/
def empty : Pool := ⟨#[], [], .empty⟩

/-- The index of the entry for `v`. -/
def find? (p : Pool) (v : Cell) : Option Nat := lookup p.index v

/-- The pool with a constant entered that it does not have. -/
def enter (p : Pool) (v : Cell) (h : p.find? v = none) : Pool :=
  ⟨p.entries.push v, (v, p.entries.size) :: p.index, p.built.enter h⟩

/-- The pool with an entry for `v`, and the index of that entry. -/
def add (p : Pool) (v : Cell) : Pool × Nat :=
  match h : p.find? v with
  | some i => (p, i)
  | none => (p.enter v h, p.entries.size)

/-- The constants that every pool begins with. -/
def seeds : List Value :=
  .boolean false :: .boolean true :: (List.range 10).map fun n => .integer (Int64.ofNat n)

/-- The pool of a new compilation. -/
def initial : Pool := seeds.foldl (fun p v => (p.add (some v)).1) empty

/-- The index of the constant false. -/
def falseIndex : Nat := 0

end Pool

end StackScript
