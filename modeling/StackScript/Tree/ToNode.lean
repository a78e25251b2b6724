import StackScript.Tree.Node

/-!
# From trees to nodes

The node of a tree whose literals are cells of a store. A literal must have a datum, and so must
the fill of a new array if it is there; the statements of the program must be there.
-/

namespace StackScript

/-- Why a tree has no node. -/
inductive ToNodeError
  /-- A literal has no datum. -/
  | value (g : Gap)
  /-- A statement of the program is absent. -/
  | absentStatement
deriving DecidableEq

/-- The wording of why a tree has no node. -/
def ToNodeError.message : ToNodeError → Bytes
  | value .missing => "cannot encode value <nil>"
  | value .endless => "array contains itself"
  | absentStatement => "missing statement"

mutual

/-- The literal value of a datum. -/
def Datum.nodeValue : Datum → NodeValue
  | .integer n => .fields LiteralType.integer.name n .zero [] false 0 0 []
  | .real x => .fields LiteralType.real.name 0 x [] false 0 0 []
  | .string s => .fields LiteralType.string.name 0 .zero s false 0 0 []
  | .boolean b => .fields LiteralType.boolean.name 0 .zero [] b 0 0 []
  | .array rows cols cells =>
    .fields LiteralType.array.name 0 .zero [] false (Int64.ofNat rows) (Int64.ofNat cols)
      (Datum.nodeValues cells)

/-- The literal values of data. -/
def Datum.nodeValues : List Datum → List NodeValue
  | [] => []
  | d :: ds => d.nodeValue :: Datum.nodeValues ds

end

/-- The literal value of a cell. -/
def Cell.nodeValue (st : Store) (c : Cell) : Except ToNodeError NodeValue :=
  match c.snapshot st with
  | .ok d => .ok d.nodeValue
  | .error e => .error (.value e)

mutual

/-- The node of an expression. -/
def Expr.node (st : Store) : Expr Cell → Except ToNodeError Node
  | .absent => .ok .absent
  | .literal pos c => do
    let v ← Cell.nodeValue st c
    return .fields ExprKind.literal.name pos [] [] [] v []
  | .load pos name => return .fields ExprKind.load.name pos name [] [] .absent []
  | .element pos name row col => do
    let r ← row.node st
    let c ← col.node st
    return .fields ExprKind.element.name pos name [] [] .absent [r, c]
  | .newArray pos rows cols fill => do
    let v ← match fill with
      | none => .ok .absent
      | some _ => Cell.nodeValue st fill
    let r ← rows.node st
    let c ← cols.node st
    return .fields ExprKind.newArray.name pos [] [] [] v [r, c]
  | .call pos name args => do
    let ns ← Expr.nodes st args
    return .fields ExprKind.call.name pos name [] [] .absent ns
  | .binary pos op left right => do
    let l ← left.node st
    let r ← right.node st
    return .fields ExprKind.binary.name pos [] op.symbol [] .absent [l, r]
  | .negation pos operand => do
    let n ← operand.node st
    return .fields ExprKind.negation.name pos [] [] [] .absent [n]

/-- The nodes of expressions. -/
def Expr.nodes (st : Store) : List (Expr Cell) → Except ToNodeError (List Node)
  | [] => return []
  | e :: es => do
    let n ← e.node st
    let ns ← Expr.nodes st es
    return n :: ns

end

mutual

/-- The node of a statement. -/
def Stmt.node (st : Store) : Stmt Cell → Except ToNodeError Node
  | .absent => .ok .absent
  | .block pos body => do
    let ns ← Stmt.nodes st body
    return .fields StmtKind.block.name pos [] [] [] .absent ns
  | .declare pos name value => do
    let v ← value.node st
    return .fields StmtKind.declare.name pos name [] [] .absent [v]
  | .assign pos name value => do
    let v ← value.node st
    return .fields StmtKind.assign.name pos name [] [] .absent [v]
  | .assignElement pos name row col value => do
    let r ← row.node st
    let c ← col.node st
    let v ← value.node st
    return .fields StmtKind.assignElement.name pos name [] [] .absent [r, c, v]
  | .branch pos cond yes no => do
    let c ← cond.node st
    let y ← yes.node st
    let n ← no.node st
    let parts := if n.isAbsent then [c, y] else [c, y, n]
    return .fields StmtKind.branch.name pos [] [] [] .absent parts
  | .whileLoop pos cond body => do
    let c ← cond.node st
    let b ← body.node st
    return .fields StmtKind.whileLoop.name pos [] [] [] .absent [c, b]
  | .countLoop pos index count body => do
    let c ← count.node st
    let b ← body.node st
    return .fields StmtKind.countLoop.name pos index [] [] .absent [c, b]
  | .leave pos => return .fields StmtKind.leave.name pos [] [] [] .absent []
  | .giveBack pos value => do
    let v ← value.node st
    return .fields StmtKind.giveBack.name pos [] [] [] .absent (if v.isAbsent then [] else [v])
  | .define pos name params body => do
    let b ← body.node st
    return .fields StmtKind.define.name pos name [] params .absent [b]
  | .perform pos name args => do
    let ns ← Expr.nodes st args
    return .fields StmtKind.perform.name pos name [] [] .absent ns

/-- The nodes of statements. -/
def Stmt.nodes (st : Store) : List (Stmt Cell) → Except ToNodeError (List Node)
  | [] => return []
  | s :: ss => do
    let n ← s.node st
    let ns ← Stmt.nodes st ss
    return n :: ns

end

/-- The nodes of the statements of a program, which must be there. -/
def Stmt.programNodes (st : Store) : List (Stmt Cell) → Except ToNodeError (List Node)
  | [] => return []
  | s :: ss =>
    if s.isAbsent then .error .absentStatement
    else do
      let n ← s.node st
      let ns ← Stmt.programNodes st ss
      return n :: ns

/-- The node of a tree. -/
def Tree.node (st : Store) (t : Tree Cell) : Except ToNodeError Node := do
  let ns ← Stmt.programNodes st t.body
  return .fields programKind t.pos [] [] [] .absent ns

end StackScript
