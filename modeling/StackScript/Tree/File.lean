import StackScript.Tree.OfNode
import StackScript.Tree.ReadNode
import StackScript.Tree.ToNode
import StackScript.Tree.WriteNode

/-!
# Tree files

A tree file holds the node of a program. `Tree.read` gives the tree in it, whose literals are data,
and `Tree.write` makes the file of a tree. `Tree.store` enters the literals of a tree into a store,
so that it can be compiled.
-/

namespace StackScript

/-- Why bytes are not a tree file. -/
inductive TreeError
  /-- The bytes hold no node. -/
  | wire (e : WireError)
  /-- The node is not a program's. -/
  | root (kind : Bytes)
  /-- A node is at fault. -/
  | node (e : NodeError)
deriving DecidableEq

/-- The wording of why bytes are not a tree file. -/
def TreeError.message : TreeError → Bytes
  | wire _ => "compiler: unmarshal tree: cbor"
  | root kind => "compiler: tree root is " ++ quoted kind ++ ", want " ++ quoted programKind
  | node e => e.message

/-- The tree that the node of a program stands for. -/
def Tree.ofNode : Node → Except TreeError (Tree Datum)
  | .absent => .error (.root [])
  | .fields kind pos _ _ _ _ nodes =>
    if kind ≠ programKind then .error (.root kind)
    else
      match Node.stmts nodes with
      | .ok body => .ok ⟨pos, body⟩
      | .error e => .error (.node e)

/-- The tree in a tree file. -/
def Tree.read (s : Bytes) : Except TreeError (Tree Datum) :=
  match Node.read s with
  | .error e => .error (.wire e)
  | .ok n => Tree.ofNode n

/-- The tree file of a tree. -/
def Tree.write (st : Store) (t : Tree Cell) : Except ToNodeError Bytes := do
  let n ← t.node st
  return n.write

mutual

/-- An expression with its literals entered into a store. -/
def Expr.store (st : Store) : Expr Datum → Expr Cell × Store
  | .absent => (.absent, st)
  | .literal pos d =>
    let (v, st) := d.store st
    (.literal pos (some v), st)
  | .load pos name => (.load pos name, st)
  | .element pos name row col =>
    let (row, st) := row.store st
    let (col, st) := col.store st
    (.element pos name row col, st)
  | .newArray pos rows cols fill =>
    let (rows, st) := rows.store st
    let (cols, st) := cols.store st
    let (v, st) := fill.store st
    (.newArray pos rows cols (some v), st)
  | .call pos name args =>
    let (args, st) := Expr.storeAll st args
    (.call pos name args, st)
  | .binary pos op left right =>
    let (left, st) := left.store st
    let (right, st) := right.store st
    (.binary pos op left right, st)
  | .negation pos operand =>
    let (operand, st) := operand.store st
    (.negation pos operand, st)

/-- Expressions with their literals entered into a store. -/
def Expr.storeAll (st : Store) : List (Expr Datum) → List (Expr Cell) × Store
  | [] => ([], st)
  | e :: es =>
    let (e, st) := e.store st
    let (es, st) := Expr.storeAll st es
    (e :: es, st)

end

mutual

/-- A statement with its literals entered into a store. -/
def Stmt.store (st : Store) : Stmt Datum → Stmt Cell × Store
  | .absent => (.absent, st)
  | .block pos body =>
    let (body, st) := Stmt.storeAll st body
    (.block pos body, st)
  | .declare pos name value =>
    let (value, st) := value.store st
    (.declare pos name value, st)
  | .assign pos name value =>
    let (value, st) := value.store st
    (.assign pos name value, st)
  | .assignElement pos name row col value =>
    let (row, st) := row.store st
    let (col, st) := col.store st
    let (value, st) := value.store st
    (.assignElement pos name row col value, st)
  | .branch pos cond yes no =>
    let (cond, st) := cond.store st
    let (yes, st) := yes.store st
    let (no, st) := no.store st
    (.branch pos cond yes no, st)
  | .whileLoop pos cond body =>
    let (cond, st) := cond.store st
    let (body, st) := body.store st
    (.whileLoop pos cond body, st)
  | .countLoop pos index count body =>
    let (count, st) := count.store st
    let (body, st) := body.store st
    (.countLoop pos index count body, st)
  | .leave pos => (.leave pos, st)
  | .giveBack pos value =>
    let (value, st) := value.store st
    (.giveBack pos value, st)
  | .define pos name params body =>
    let (body, st) := body.store st
    (.define pos name params body, st)
  | .perform pos name args =>
    let (args, st) := Expr.storeAll st args
    (.perform pos name args, st)

/-- Statements with their literals entered into a store. -/
def Stmt.storeAll (st : Store) : List (Stmt Datum) → List (Stmt Cell) × Store
  | [] => ([], st)
  | s :: ss =>
    let (s, st) := s.store st
    let (ss, st) := Stmt.storeAll st ss
    (s :: ss, st)

end

/-- A tree with its literals entered into a store. -/
def Tree.store (st : Store) (t : Tree Datum) : Tree Cell × Store :=
  let (body, st) := Stmt.storeAll st t.body
  (⟨t.pos, body⟩, st)

end StackScript
