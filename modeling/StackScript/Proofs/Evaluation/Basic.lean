import StackScript.Machine.Host
import StackScript.Proofs.Tree.Functions
import StackScript.Proofs.Value.Pool

/-!
# Direct evaluation

What a tree means without any code. Expressions have values and statements change variables, with
operands evaluated from left to right, arguments from last to first, and both operands of every
operator. A call finds its function by name, one that the tree declares before one of the host, and
gets an activation of its own whose variables are all false. Loops and calls may go on forever, so
an evaluation has a bound: it is `unfinished` if a loop is repeated or calls are nested that often,
and every larger bound lets it go further.
-/

namespace StackScript

/-- Why a program fails. -/
inductive Failure
  | notArray (kind : Kind)
  | indexOutOfRange (e : IndexError)
  | arraySize (e : SizeError)
  | divideByZero
  /-- A value that is looked at is missing. -/
  | missingValue
  /-- A function of the host fails. -/
  | host (name : Bytes) (e : HostError)
deriving DecidableEq

/-- Why an evaluation has no result. -/
inductive Stop
  /-- The program fails. -/
  | failure (f : Failure)
  /-- The bound of the evaluation is reached. -/
  | unfinished
  /-- The tree has no meaning: an expression is absent, a function or an operator is not known, or
  a function is left as if it were a loop. -/
  | malformed
deriving DecidableEq

/-- The call of a function under way. -/
structure Activation where
  /-- The variables of the function. -/
  vars : Bytes → Cell
  /-- What the program shares with its host. -/
  world : World

/-- An evaluation inside an activation. -/
abbrev Eval := EStateM Stop Activation

/-- How a statement ends. -/
inductive Flow
  /-- The next statement follows. -/
  | next
  /-- The innermost loop is left. -/
  | leave
  /-- The function is left with a value. -/
  | giveBack (v : Cell)

/-! ## Operations on cells -/

/-- The value in a cell that must hold one. -/
def Cell.require : Cell → Except Stop Value
  | some v => .ok v
  | none => .error (.failure .missingValue)

/-- An operator on two cells. -/
def Operator.evaluate (op : Operator) (st : Store) (a b : Cell) : Except Stop Cell :=
  match op.applyCells st a b with
  | .ok v => .ok (some v)
  | .error .divideByZero => .error (.failure .divideByZero)
  | .error .missing => .error (.failure .missingValue)
  | .error .undefined => .error .malformed

/-- The opposite truth value of a cell. -/
def Cell.negate (c : Cell) : Except Stop Cell := do
  let v ← c.require
  return some (.boolean !v.truth)

/-- The array in a cell, and the row and the column that two cells stand for. -/
def Cell.element : Cell → Cell → Cell → Except Stop (Nat × Int × Int)
  | some (.array key), row, col => do
    let row ← row.require
    let col ← col.require
    return (key, row.toIndex, col.toIndex)
  | some v, _, _ => .error (.failure (.notArray v.kind))
  | none, _, _ => .error (.failure .missingValue)

/-- The cell of the array in a cell at a row and a column. -/
def Cell.read (c : Cell) (st : Store) (row col : Cell) : Except Stop Cell := do
  let (key, row, col) ← c.element row col
  match (st.grid key).get row col with
  | .ok v => .ok v
  | .error e => .error (.failure (.indexOutOfRange e))

/-- The store after the cell of the array in a cell at a row and a column is set. -/
def Cell.write (c : Cell) (st : Store) (row col v : Cell) : Except Stop Store := do
  let (key, row, col) ← c.element row col
  match st.setCell key row col v with
  | .ok st => .ok st
  | .error e => .error (.failure (.indexOutOfRange e))

/-- The contents of a new array whose size two cells give. -/
def Grid.evaluate (rows cols fill : Cell) : Except Stop Grid := do
  let rows ← rows.require
  let cols ← cols.require
  match Grid.make rows.toIndex cols.toIndex fill with
  | .ok g => .ok g
  | .error e => .error (.failure (.arraySize e))

namespace Eval

/-- The result of an operation on cells. -/
def lift (r : Except Stop α) : Eval α :=
  match r with
  | .ok a => return a
  | .error e => throw e

/-- The contents of a variable. -/
def getVar (x : Bytes) : Eval Cell := do return (← get).vars x

/-- Sets a variable. -/
def setVar (x : Bytes) (v : Cell) : Eval Unit :=
  modify fun a => { a with vars := fun y => if y = x then v else a.vars y }

/-- The arrays. -/
def store : Eval Store := do return (← get).world.store

/-- Changes the arrays. -/
def setStore (st : Store) : Eval Unit :=
  modify fun a => { a with world := { a.world with store := st } }

/-- What a call does, which cannot touch the variables. -/
def invoke (call : EStateM Stop World Cell) : Eval Cell := fun a =>
  match call a.world with
  | .ok v w => .ok v { a with world := w }
  | .error e w => .error e { a with world := w }

/-- Repeats a body while a test holds, at most as often as the bound says. -/
def repeatWhile (test : Eval Bool) (body : Eval Flow) : Nat → Eval Flow
  | 0 => throw .unfinished
  | n + 1 => do
    if ← test then
      match ← body with
      | .next => repeatWhile test body n
      | .leave => return .next
      | .giveBack v => return .giveBack v
    else return .next

/-- The index of a counting loop that was `i` last: a variable if it has a name. -/
def getIndex (index : Bytes) (i : Cell) : Eval Cell :=
  if index.isEmpty then return i else getVar index

/-- Sets the index of a counting loop: nothing can see it if it has no name. -/
def setIndex (index : Bytes) (i : Cell) : Eval Unit :=
  if index.isEmpty then return else setVar index i

/-- Repeats a body while the index of a loop, which counts on, is less than the count, at most as
often as the bound says. -/
def repeatCounting (index : Bytes) (count : Eval Cell) (body : Eval Flow) :
    Nat → Cell → Eval Flow
  | 0, _ => throw .unfinished
  | n + 1, i => do
    let limit ← count
    let less ← lift (Operator.lt.evaluate (← store) i limit)
    if (← lift less.require).truth then
      match ← body with
      | .next => do
        let i ← lift (Operator.add.evaluate (← store) (← getIndex index i) (some (.integer 1)))
        setIndex index i
        repeatCounting index count body n i
      | .leave => return .next
      | .giveBack v => return .giveBack v
    else return .next

/-- Runs the body of a function in an activation of its own; a body that ends gives back false. -/
def activate (vars : Bytes → Cell) (body : Eval Flow) : EStateM Stop World Cell := fun w =>
  match body ⟨vars, w⟩ with
  | .ok .next a => .ok (some (.boolean false)) a.world
  | .ok (.giveBack v) a => .ok v a.world
  | .ok .leave a => .error .malformed a.world
  | .error e a => .error e a.world

end Eval

/-! ## Expressions, statements and programs -/

open Eval

/-- What a call by name with given arguments does. -/
abbrev Calls := Bytes → List Cell → EStateM Stop World Cell

mutual

/-- The value of an expression. A literal is the constant that stands for it. -/
def Expr.eval (constants : List Cell) (call : Calls) : Expr Cell → Eval Cell
  | .absent => throw .malformed
  | .literal _ v => return entryOf constants v
  | .load _ x => getVar x
  | .element _ x row col => do
    let row ← row.eval constants call
    let col ← col.eval constants call
    lift ((← getVar x).read (← store) row col)
  | .newArray _ rows cols fill => do
    let rows ← rows.eval constants call
    let cols ← cols.eval constants call
    let value := entryOf constants (some (fill.getD (.boolean false)))
    let grid ← lift (Grid.evaluate rows cols value)
    let arrays ← store
    setStore (arrays.add grid)
    return some (.array arrays.next)
  | .call _ name args => do
    let args ← Expr.evalArguments constants call args
    invoke (call name args)
  | .binary _ op left right => do
    let a ← left.eval constants call
    let b ← right.eval constants call
    lift (op.evaluate (← store) a b)
  | .negation _ operand => do
    let v ← operand.eval constants call
    lift v.negate

/-- The values of the arguments of a call, which are evaluated from last to first. -/
def Expr.evalArguments (constants : List Cell) (call : Calls) :
    List (Expr Cell) → Eval (List Cell)
  | [] => return []
  | e :: es => do
    let vs ← Expr.evalArguments constants call es
    let v ← e.eval constants call
    return v :: vs

end

/-- Whether a condition holds. -/
def Expr.test (constants : List Cell) (call : Calls) (e : Expr Cell) : Eval Bool := do
  let v ← e.eval constants call
  return (← lift v.require).truth

mutual

/-- Executes a statement. A function that is declared does nothing where it stands. -/
def Stmt.exec (constants : List Cell) (call : Calls) (bound : Nat) : Stmt Cell → Eval Flow
  | .absent => return .next
  | .block _ body => Stmt.execAll constants call bound body
  | .declare _ x value => do
    setVar x (← value.eval constants call)
    return .next
  | .assign _ x value => do
    setVar x (← value.eval constants call)
    return .next
  | .assignElement _ x row col value => do
    let row ← row.eval constants call
    let col ← col.eval constants call
    let v ← value.eval constants call
    setStore (← lift ((← getVar x).write (← store) row col v))
    return .next
  | .branch _ cond yes no => do
    if ← cond.test constants call then yes.exec constants call bound
    else no.exec constants call bound
  | .whileLoop _ cond body =>
    repeatWhile (cond.test constants call) (body.exec constants call bound) bound
  | .countLoop _ index count body => do
    setIndex index (some (.integer 0))
    repeatCounting index (count.eval constants call) (body.exec constants call bound) bound
      (some (.integer 0))
  | .leave _ => return .leave
  | .giveBack _ value =>
    if value.isAbsent then return .giveBack (some (.boolean false))
    else do return .giveBack (← value.eval constants call)
  | .define _ _ _ _ => return .next
  | .perform _ name args => do
    let args ← Expr.evalArguments constants call args
    let _ ← invoke (call name args)
    return .next

/-- Executes statements in sequence, as long as the next statement follows. -/
def Stmt.execAll (constants : List Cell) (call : Calls) (bound : Nat) :
    List (Stmt Cell) → Eval Flow
  | [] => return .next
  | s :: ss => do
    match ← s.exec constants call bound with
    | .next => Stmt.execAll constants call bound ss
    | flow => return flow

end

/-- The variables of a function that is called: its parameters are the arguments, and all others are
false. -/
def bindParameters (params : List Bytes) (args : List Cell) (x : Bytes) : Cell :=
  match params.findIdx? fun y => y == x with
  | some i => args[i]?.getD (some (.boolean false))
  | none => some (.boolean false)

/-- Calls a function of the host. -/
def callNative (hosts : Array HostFunction) (name : Bytes) (args : List Cell) :
    EStateM Stop World Cell := fun w =>
  match hosts.find? fun f => f.name == name with
  | none => .error .malformed w
  | some f =>
    match f.run args w with
    | .ok v w => .ok v w
    | .error e w => .error (.failure (.host f.name e)) w

/-- What calls do within a bound: a function that the tree declares comes before one of the host. -/
def callWithin (constants : List Cell) (functions : List Function) (hosts : Array HostFunction) :
    Nat → Calls
  | 0, _, _ => throw .unfinished
  | n + 1, name, args =>
    match functionNamed? functions name with
    | some d =>
      activate (bindParameters d.params args)
        (d.body.exec constants (callWithin constants functions hosts n) n)
    | none => callNative hosts name args

/-- Evaluates a program within a bound. Its result is the integer that the value given back stands
for. -/
def Tree.evaluate (t : Tree Cell) (constants : List Cell) (hosts : Array HostFunction)
    (bound : Nat) (world : World) : EStateM.Result Stop World Int64 :=
  let call := callWithin constants t.functions hosts bound
  match activate (bindParameters [] []) (Stmt.execAll constants call bound t.body) world with
  | .ok (some v) w => .ok v.toReal.toInt64 w
  | .ok none w => .error (.failure .missingValue) w
  | .error e w => .error e w

end StackScript
