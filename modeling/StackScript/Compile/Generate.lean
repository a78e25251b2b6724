import StackScript.Code.Program
import StackScript.Compile.Symbols
import StackScript.Value.Pool

/-!
# Generating code

A tree becomes a stream of instructions that is not linked yet. Every function begins with the
allocation of its frame, whose size is filled in when the function ends, and its code stands where
it is declared, behind a jump around it. What was generated before a fault stays.
-/

namespace StackScript

/-- The state of a compilation. -/
structure Compilation where
  /-- The names that are known. -/
  symbols : Symbols := {}
  /-- The constants. -/
  pool : Pool := Pool.initial
  /-- The instructions so far. -/
  code : Array Instruction := #[]
  /-- The number of labels made so far. -/
  labels : Nat := 0

/-- What generating code does to the compilation. -/
abbrev Generate := EStateM CompileError Compilation

/-- The label of the code of a function. -/
def functionLabel (name : Bytes) : Bytes := "<" ++ name ++ ">"

/-- The label with a number; a word says what it is for. -/
def generatedLabel (n : Nat) (word : Bytes) : Bytes := "@L" ++ decimal n ++ "-" ++ word

/-- The scope of the statements outside all functions. -/
def programScope : Bytes := "<Program>"

namespace Generate

/-- What `x` does; its fault gets a position. -/
def located (p : Position) (x : Generate α) : Generate α := fun c =>
  match x c with
  | .ok a c => .ok a c
  | .error e c => .error (e.locate p) c

/-- The result of an operation on the symbols that may fail. -/
def lift (r : Except CompileFault α) : Generate α :=
  match r with
  | .ok a => pure a
  | .error f => throw ⟨none, f⟩

/-- Appends an instruction. -/
def emit (i : Instruction) : Generate Unit := modify fun c => { c with code := c.code.push i }

/-- Appends an instruction with an operand. -/
def emitOperand (op : Opcode) (n : Nat) : Generate Unit := emit { op, operand := UInt64.ofNat n }

/-- Appends a jump to a label. -/
def emitJump (op : Opcode) (target : Bytes) : Generate Unit := emit { op, target }

/-- Marks the place with a label. -/
def mark (label : Bytes) : Generate Unit := emit { op := .noop, label }

/-- Makes a label. -/
def newLabel (word : Bytes) : Generate Bytes := do
  modify fun c => { c with labels := c.labels + 1 }
  return generatedLabel (← get).labels word

/-- Pushes a constant. -/
def loadConstant (v : Cell) : Generate Unit := do
  let (pool, i) := (← get).pool.add v
  modify fun c => { c with pool }
  emitOperand .constant i

/-- Declares a variable and gives its slot. -/
def declareVariable (name : Bytes) : Generate Nat := do
  let (slot, symbols) ← lift ((← get).symbols.declare name)
  modify fun c => { c with symbols }
  return slot

/-- Appends an instruction on the slot of a variable. -/
def emitSlot (op : Opcode) (name : Bytes) : Generate Unit := do
  let slot ← lift ((← get).symbols.resolve name)
  emitOperand op slot

/-- Appends a call. -/
def emitCall (name : Bytes) (argc : Nat) : Generate Unit :=
  emit { op := .call, target := functionLabel name, callee := name, argc }

/-- The name of the index of a counting loop; one that has no name gets a hidden one. -/
def indexVariable (index : Bytes) : Generate Bytes := do
  if index.isEmpty then
    let label ← newLabel "index"
    return "<" ++ label ++ ">"
  else
    return index

/-- What `x` does inside a loop. The loop is closed again also if `x` fails. -/
def inLoop (start stop : Bytes) (x : Generate α) : Generate α := fun c =>
  match x { c with symbols := c.symbols.enterLoop start stop } with
  | .ok a c => .ok a { c with symbols := c.symbols.exitLoop }
  | .error e c => .error e { c with symbols := c.symbols.exitLoop }

/-- Opens a function, appends the allocation of its frame and gives the place of that. -/
def openFrame (name : Bytes) : Generate Nat := do
  modify fun c => { c with symbols := c.symbols.enter name }
  let place := (← get).code.size
  emitOperand .frame 0
  return place

/-- Closes a function and fills in the size of its frame. -/
def closeFrame (place : Nat) : Generate Unit := do
  let (scope, symbols) ← lift (← get).symbols.exit
  modify fun c =>
    { c with
      symbols
      code := c.code.modify place fun i => { i with operand := UInt64.ofNat scope.slots.size } }

/-- Leaves the function with the value false. -/
def giveBackFalse : Generate Unit := do
  loadConstant (some (.boolean false))
  emit { op := .ret }

/-- Declares variables in order. -/
def declareAll : List Bytes → Generate Unit
  | [] => return
  | name :: names => do
    let _ ← declareVariable name
    declareAll names

/-- Stores the values on the stack into variables in order. -/
def storeAll : List Bytes → Generate Unit
  | [] => return
  | name :: names => do
    emitSlot .store name
    storeAll names

end Generate

open Generate

mutual

/-- Generates the code of an expression, which pushes its value. -/
def Expr.generate : Expr Cell → Generate Unit
  | .absent => throw ⟨none, .missingExpression⟩
  | .literal _ v => loadConstant v
  | .load pos name => located pos (emitSlot .load name)
  | .element pos name row col => located pos do
    row.generate
    col.generate
    emitSlot .readArray name
  | .newArray pos rows cols fill => located pos do
    rows.generate
    cols.generate
    loadConstant (some (fill.getD (.boolean false)))
    emit { op := .makeArray }
  | .call pos name args => located pos do
    Expr.generateArguments args
    emitCall name args.length
  | .binary pos op left right => located pos do
    match op.opcode? with
    | none => throw ⟨none, .unknownOperator op⟩
    | some code => do
      left.generate
      right.generate
      emit { op := code }
  | .negation pos operand => located pos do
    operand.generate
    emit { op := .not }

/-- Generates the code of the arguments of a call, the last first. -/
def Expr.generateArguments : List (Expr Cell) → Generate Unit
  | [] => return
  | e :: es => do
    Expr.generateArguments es
    e.generate

end

mutual

/-- Generates the code of a statement, which leaves the stack as it was. -/
def Stmt.generate : Stmt Cell → Generate Unit
  | .absent => return
  | .block _ body => Stmt.generateAll body
  | .declare pos name value => located pos do
    let slot ← declareVariable name
    value.generate
    emitOperand .store slot
  | .assign pos name value => located pos do
    value.generate
    emitSlot .store name
  | .assignElement pos name row col value => located pos do
    row.generate
    col.generate
    value.generate
    emitSlot .writeArray name
  | .branch pos cond yes no => located pos do
    let stop ← newLabel "end"
    if no.isAbsent then
      cond.generate
      emitJump .jumpUnless stop
      yes.generate
      emitJump .jump stop
      mark stop
    else
      let otherwise ← newLabel "false"
      cond.generate
      emitJump .jumpUnless otherwise
      yes.generate
      emitJump .jump stop
      mark otherwise
      no.generate
      mark stop
  | .whileLoop pos cond body => located pos do
    let start ← newLabel "begin"
    let stop ← newLabel "end"
    inLoop start stop do
      mark start
      cond.generate
      emitJump .jumpUnless stop
      body.generate
      emitJump .jump start
      mark stop
  | .countLoop pos index count body => located pos do
    let start ← newLabel "begin"
    let stop ← newLabel "end"
    inLoop start stop do
      let name ← indexVariable index
      let _ ← declareVariable name
      let slot ← lift ((← get).symbols.resolve name)
      loadConstant (some (.integer 0))
      emitOperand .store slot
      mark start
      emitOperand .load slot
      count.generate
      emit { op := .lt }
      emitJump .jumpUnless stop
      body.generate
      emitOperand .load slot
      loadConstant (some (.integer 1))
      emit { op := .add }
      emitOperand .store slot
      emitJump .jump start
      mark stop
  | .leave pos => located pos do
    let stop ← lift (← get).symbols.loopStop
    emitJump .jump stop
  | .giveBack pos value =>
    if value.isAbsent then giveBackFalse
    else located pos do
      value.generate
      emit { op := .ret }
  | .define pos name params body => located pos do
    let stop ← newLabel "function-end"
    emitJump .jump stop
    modify fun c => { c with symbols := c.symbols.define name params.length 0 }
    mark (functionLabel name)
    let place ← openFrame name
    declareAll params
    storeAll params
    body.generate
    giveBackFalse
    closeFrame place
    mark stop
  | .perform pos name args => located pos do
    Expr.generateArguments args
    emitCall name args.length
    emit { op := .pop }

/-- Generates the code of statements in sequence. -/
def Stmt.generateAll : List (Stmt Cell) → Generate Unit
  | [] => return
  | s :: ss => do
    s.generate
    Stmt.generateAll ss

end

/-- Generates the code of a whole program, which gives back false at its end. -/
def Tree.generate (t : Tree Cell) : Generate Unit := do
  let place ← openFrame programScope
  Stmt.generateAll t.body
  giveBackFalse
  closeFrame place

end StackScript
