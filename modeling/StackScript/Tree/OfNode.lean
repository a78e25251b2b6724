import StackScript.Tree.Node

/-!
# From nodes to trees

The tree that a node stands for, or what is wrong with the first node at fault. Required operands,
names and values must be there; absent statements of a block are left out.
-/

namespace StackScript

/-- What is wrong with a literal value. -/
inductive LiteralError
  /-- No array has this size. -/
  | size (e : SizeError)
  /-- There are more cells than the array has. -/
  | shape (rows cols : Int) (cells : Nat)
  /-- There is no such type. -/
  | unknownType (type : Bytes)
deriving DecidableEq

/-- What is wrong with a node. -/
inductive NodeFault
  | missingOperand (i : Nat)
  | missingName
  | missingValue
  | unknownOperator (op : Bytes)
  | badValue (e : LiteralError)
  | notStatement
  | notExpression
deriving DecidableEq

/-- A node at fault. -/
structure NodeError where
  /-- The position of the node. -/
  pos : Position
  /-- The kind of the node. -/
  kind : Bytes
  /-- What is wrong with it. -/
  fault : NodeFault
deriving DecidableEq

/-- The wording of what is wrong with a literal value. -/
def LiteralError.message : LiteralError → Bytes
  | size e => e.message
  | shape rows cols n =>
    "bad array shape [" ++ decimalInt rows ++ "," ++ decimalInt cols ++ "] with " ++ decimal n ++
      " cells"
  | unknownType t => "unknown value type " ++ quoted t

/-- The wording of what is wrong with a node. -/
def NodeFault.message : NodeFault → Bytes
  | missingOperand i => "missing operand " ++ decimal i
  | missingName => "missing name"
  | missingValue => "missing value"
  | unknownOperator op => "unknown operator " ++ quoted op
  | badValue e => e.message
  | notStatement => "not a statement"
  | notExpression => "not an expression"

/-- The wording of a node at fault. -/
def NodeError.message (e : NodeError) : Bytes :=
  e.pos.mark (e.kind ++ " node: " ++ e.fault.message)

/-- `cells` with cells that are false behind them up to the given number. -/
def padFalse (n : Nat) (cells : List Datum) : List Datum :=
  cells ++ List.replicate (n - cells.length) (.boolean false)

mutual

/-- The datum that a literal value stands for; no value stands for false. -/
def NodeValue.datum : NodeValue → Except LiteralError Datum
  | .absent => .ok (.boolean false)
  | .fields type int real str bool rows cols cells =>
    match LiteralType.ofName? type with
    | some .integer => .ok (.integer int)
    | some .real => .ok (.real real)
    | some .string => .ok (.string str)
    | some .boolean => .ok (.boolean bool)
    | some .array =>
      let r := rows.toInt
      let c := cols.toInt
      if !Grid.sizeAllowed r c then .error (.size ⟨r, c⟩)
      else if r.toNat * c.toNat < cells.length then .error (.shape r c cells.length)
      else
        match NodeValue.data [] cells with
        | .ok data => .ok (.array r.toNat c.toNat (padFalse (r.toNat * c.toNat) data))
        | .error e => .error e
    | none => .error (.unknownType type)

/-- The data that cells stand for, behind those in `acc`, which are in reverse. -/
def NodeValue.data (acc : List Datum) : List NodeValue → Except LiteralError (List Datum)
  | [] => .ok acc.reverse
  | v :: vs =>
    match v.datum with
    | .ok d => NodeValue.data (d :: acc) vs
    | .error e => .error e

end

/-- A node that must have a name has one. -/
def NodeError.unlessNamed (pos : Position) (kind name : Bytes) : Except NodeError Unit :=
  if name.isEmpty then .error ⟨pos, kind, .missingName⟩ else .ok ()

mutual

/-- The expression that a node stands for. -/
def Node.expr : Node → Except NodeError (Expr Datum)
  | .absent => .ok .absent
  | .fields kind pos name op _ value nodes =>
    let fail (f : NodeFault) : Except NodeError (Expr Datum) := .error ⟨pos, kind, f⟩
    match ExprKind.ofName? kind with
    | some .literal =>
      match value with
      | .absent => fail .missingValue
      | v =>
        match v.datum with
        | .ok d => .ok (.literal pos d)
        | .error e => fail (.badValue e)
    | some .load => do
      NodeError.unlessNamed pos kind name
      return .load pos name
    | some .element => do
      NodeError.unlessNamed pos kind name
      let es ← Node.operands pos kind 0 2 nodes
      return .element pos name (es.getD 0 .absent) (es.getD 1 .absent)
    | some .newArray => do
      let es ← Node.operands pos kind 0 2 nodes
      match value.datum with
      | .ok d => return .newArray pos (es.getD 0 .absent) (es.getD 1 .absent) d
      | .error e => fail (.badValue e)
    | some .call => do
      NodeError.unlessNamed pos kind name
      let args ← Node.operands pos kind 0 nodes.length nodes
      return .call pos name args
    | some .binary =>
      match Operator.ofSymbol? op with
      | none => fail (.unknownOperator op)
      | some o => do
        let es ← Node.operands pos kind 0 2 nodes
        return .binary pos o (es.getD 0 .absent) (es.getD 1 .absent)
    | some .negation => do
      let es ← Node.operands pos kind 0 1 nodes
      return .negation pos (es.getD 0 .absent)
    | none => fail .notExpression

/-- The expressions that the first `count` nodes stand for, which must be there; `i` is the number
of operands in front of them. -/
def Node.operands (pos : Position) (kind : Bytes) (i count : Nat) :
    List Node → Except NodeError (List (Expr Datum))
  | [] => if count = 0 then .ok [] else .error ⟨pos, kind, .missingOperand i⟩
  | n :: ns =>
    if count = 0 then .ok []
    else if n.isAbsent then .error ⟨pos, kind, .missingOperand i⟩
    else do
      let e ← n.expr
      let es ← Node.operands pos kind (i + 1) (count - 1) ns
      return e :: es

end

/-- The expression that the first operand stands for, which must be there. -/
def Node.firstOperand (pos : Position) (kind : Bytes) (nodes : List Node) :
    Except NodeError (Expr Datum) := do
  let es ← Node.operands pos kind 0 1 nodes
  return es.getD 0 .absent

mutual

/-- The statement that a node stands for. -/
def Node.stmt : Node → Except NodeError (Stmt Datum)
  | .absent => .ok .absent
  | .fields kind pos name _ params _ nodes =>
    match StmtKind.ofName? kind with
    | some .block => do
      let body ← Node.stmts nodes
      return .block pos body
    | some .declare => do
      NodeError.unlessNamed pos kind name
      let value ← Node.firstOperand pos kind nodes
      return .declare pos name value
    | some .assign => do
      NodeError.unlessNamed pos kind name
      let value ← Node.firstOperand pos kind nodes
      return .assign pos name value
    | some .assignElement => do
      NodeError.unlessNamed pos kind name
      let es ← Node.operands pos kind 0 3 nodes
      return .assignElement pos name (es.getD 0 .absent) (es.getD 1 .absent) (es.getD 2 .absent)
    | some .branch => do
      let cond ← Node.firstOperand pos kind nodes
      let yes ← Node.bodyAt pos kind 1 1 nodes
      let no ← Node.stmtAt 2 nodes
      return .branch pos cond yes no
    | some .whileLoop => do
      let cond ← Node.firstOperand pos kind nodes
      let body ← Node.bodyAt pos kind 1 1 nodes
      return .whileLoop pos cond body
    | some .countLoop => do
      let count ← Node.firstOperand pos kind nodes
      let body ← Node.bodyAt pos kind 1 1 nodes
      return .countLoop pos name count body
    | some .leave => return .leave pos
    | some .giveBack => do
      let value ← match nodes with
        | [] => .ok .absent
        | n :: _ => n.expr
      return .giveBack pos value
    | some .define => do
      NodeError.unlessNamed pos kind name
      let body ← Node.bodyAt pos kind 0 0 nodes
      return .define pos name params body
    | some .perform => do
      NodeError.unlessNamed pos kind name
      let args ← Node.operands pos kind 0 nodes.length nodes
      return .perform pos name args
    | none => .error ⟨pos, kind, .notStatement⟩

/-- The statements that nodes stand for; absent ones are left out. -/
def Node.stmts : List Node → Except NodeError (List (Stmt Datum))
  | [] => .ok []
  | n :: ns =>
    if n.isAbsent then Node.stmts ns
    else do
      let s ← n.stmt
      let ss ← Node.stmts ns
      return s :: ss

/-- The statement that operand `i` stands for, which must be there; `skip` nodes are in front of
it. -/
def Node.bodyAt (pos : Position) (kind : Bytes) (i skip : Nat) :
    List Node → Except NodeError (Stmt Datum)
  | [] => .error ⟨pos, kind, .missingOperand i⟩
  | n :: ns =>
    if skip = 0 then
      if n.isAbsent then .error ⟨pos, kind, .missingOperand i⟩ else n.stmt
    else Node.bodyAt pos kind i (skip - 1) ns

/-- The statement that the node behind `skip` others stands for, if it is there. -/
def Node.stmtAt (skip : Nat) : List Node → Except NodeError (Stmt Datum)
  | [] => .ok .absent
  | n :: ns => if skip = 0 then n.stmt else Node.stmtAt (skip - 1) ns

end

end StackScript
