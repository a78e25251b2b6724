import StackScript.Machine.State

/-!
# Steps of the machine

What each instruction does. An instruction that fails leaves the place of the machine at itself.
-/

namespace StackScript

/-- The wording of a fault. -/
def Fault.message : Fault → Bytes
  | stackUnderflow => "calculation stack underflow"
  | slotOutOfRange slot size =>
    "data slot out of range: " ++ decimal slot ++ " of " ++ decimal size
  | constantOutOfRange n => "constant index out of range: " ++ decimal n
  | jumpOutOfRange n => "jump target out of range: " ++ decimal n
  | hostOutOfRange n => "host function index out of range: " ++ decimal n
  | notArray slot kind =>
    "slot does not hold an array: slot " ++ decimal slot ++ " holds " ++ kind.name
  | indexOutOfRange e => e.message
  | frameTooLarge n => "data frame too large: " ++ decimal n ++ " slots"
  | arraySize e => e.message
  | divideByZero => "integer division by zero"
  | noCaller => "return with empty call stack"
  | unknownOpcode c => "unknown opcode: " ++ decimal c.toNat
  | missingValue => "missing value"
  | host name e => name ++ ": " ++ e.message

/-- The fault of an operator without a value, applied by the operation with the given number. -/
def OperatorError.fault (code : UInt16) : OperatorError → Fault
  | divideByZero => .divideByZero
  | undefined => .unknownOpcode code
  | missing => .missingValue

namespace Exec

/-- Goes on to the next instruction. -/
def next : Exec Unit := modify fun s => { s with place := s.place + 1 }

/-- Pushes a cell. -/
def push (c : Cell) : Exec Unit := modify fun s => { s with stack := c :: s.stack }

/-- Pops a cell. -/
def pop : Exec Cell := fun s =>
  match s with
  | ⟨place, c :: stack, frame, callers, world⟩ => .ok c ⟨place, stack, frame, callers, world⟩
  | s => .error .stackUnderflow s

/-- The value in a cell that must hold one. -/
def value (c : Cell) : Exec Value :=
  match c with
  | some v => return v
  | none => throw .missingValue

/-- Pops the arguments of a host call, the first of them first. -/
def popMany : Nat → Exec (List Cell)
  | 0 => return []
  | n + 1 => do
    let c ← pop
    let cs ← popMany n
    return c :: cs

/-- The slot that an operand names. -/
def slot (operand : UInt64) : Exec Nat := do
  let size := (← get).frame.size
  if operand.toNat < size then return operand.toNat
  else throw (.slotOutOfRange operand.toNat size)

/-- Goes to the instruction at a place, which the program must have. -/
def jump (p : Program) (operand : UInt64) : Exec Unit :=
  if operand.toNat < p.code.size then modify fun s => { s with place := operand.toNat }
  else throw (.jumpOutOfRange operand.toNat)

/-- Uses a new data frame in which every slot is false. The latest caller keeps the one in use. -/
def allocate (slots : Nat) : Exec Unit := modify fun s =>
  let fresh := Array.replicate slots (some (.boolean false))
  match s with
  | ⟨place, stack, frame, ⟨resume, none⟩ :: callers, world⟩ =>
    ⟨place, stack, fresh, ⟨resume, some frame⟩ :: callers, world⟩
  | s => { s with frame := fresh }

/-- Pops a row and a column and finds the array in a slot. -/
def element (operand : UInt64) : Exec (Nat × Int × Int) := do
  let col ← pop
  let row ← pop
  let i ← slot operand
  match ← value ((← get).frame.getD i none) with
  | .array key =>
    let row ← value row
    let col ← value col
    return (key, row.toIndex, col.toIndex)
  | v => throw (.notArray i v.kind)

/-- Calls the host function at an index. -/
def callHost (hosts : Array HostFunction) (operand : UInt64) : Exec Unit := do
  let call := HostCall.unpack operand
  match hosts[call.index]? with
  | none => throw (.hostOutOfRange call.index)
  | some f =>
    let args ← popMany call.argc
    fun
    | ⟨place, stack, frame, callers, world⟩ =>
      match f.run args world with
      | .ok c world => .ok () ⟨place, c :: stack, frame, callers, world⟩
      | .error e world => .error (.host f.name e) ⟨place, stack, frame, callers, world⟩

/-- Makes an array of the popped size and fill. -/
def makeArray : Exec Unit := do
  let fill ← pop
  let cols ← pop
  let rows ← pop
  let rows ← value rows
  let cols ← value cols
  match Grid.make rows.toIndex cols.toIndex fill with
  | .error e => throw (.arraySize e)
  | .ok g =>
    modify fun
    | ⟨place, stack, frame, callers, world⟩ =>
      let key := world.store.next
      ⟨place, some (.array key) :: stack, frame, callers,
        { world with store := world.store.add g }⟩

/-- Sets a cell of an array in the store. -/
def setCell (key : Nat) (row col : Int) (v : Cell) : Exec Unit := fun
  | ⟨place, stack, frame, callers, ⟨store, globals, console, generator, clock⟩⟩ =>
    match (store.grid key).index? row col with
    | some i =>
      .ok () ⟨place, stack, frame, callers,
        ⟨⟨store.grids.modify key fun g => g.put i v⟩, globals, console, generator, clock⟩⟩
    | none =>
      .error (.indexOutOfRange ⟨row, col, (store.grid key).rows, (store.grid key).cols⟩)
        ⟨place, stack, frame, callers, ⟨store, globals, console, generator, clock⟩⟩

/-- Returns to the latest caller. -/
def ret : Exec Unit := fun s =>
  match s with
  | ⟨_, stack, frame, caller :: callers, world⟩ =>
    .ok () ⟨caller.resume, stack, caller.frame.getD frame, callers, world⟩
  | s => .error .noCaller s

end Exec

open Exec in
/-- What an instruction of a program does. -/
def step (p : Program) (hosts : Array HostFunction) (i : Instruction) : Exec Unit :=
  match i.op with
  | .noop => next
  | .frame =>
    if maxCells < i.operand.toNat then throw (.frameTooLarge i.operand.toNat)
    else do
      allocate i.operand.toNat
      next
  | .constant =>
    match p.constants[i.operand.toNat]? with
    | some c => do
      push c
      next
    | none => throw (.constantOutOfRange i.operand.toNat)
  | .load => do
    let k ← slot i.operand
    push ((← get).frame.getD k none)
    next
  | .store => do
    let c ← pop
    let k ← slot i.operand
    modify fun s => { s with frame := s.frame.setIfInBounds k c }
    next
  | .push => do
    push (some (.boolean false))
    next
  | .pop => do
    let _ ← pop
    next
  | .not => do
    let v ← value (← pop)
    push (some (.boolean !v.truth))
    next
  | .jump => jump p i.operand
  | .jumpIf => do
    let v ← value (← pop)
    if v.truth then jump p i.operand else next
  | .jumpUnless => do
    let v ← value (← pop)
    if v.truth then next else jump p i.operand
  | .call => do
    modify fun s => { s with callers := ⟨s.place + 1, none⟩ :: s.callers }
    jump p i.operand
  | .ret => ret
  | .callHost => do
    callHost hosts i.operand
    next
  | .makeArray => do
    makeArray
    next
  | .readArray => do
    let (key, row, col) ← element i.operand
    match ((← get).world.store.grid key).get row col with
    | .ok c => do
      push c
      next
    | .error e => throw (.indexOutOfRange e)
  | .writeArray => do
    let v ← pop
    let (key, row, col) ← element i.operand
    setCell key row col v
    next
  | op =>
    match op.operator? with
    | some o => do
      let b ← pop
      let a ← pop
      match o.applyCells (← get).world.store a b with
      | .ok v =>
        push (some v)
        next
      | .error e => throw (e.fault op.code)
    | none => throw (.unknownOpcode op.code)

end StackScript
