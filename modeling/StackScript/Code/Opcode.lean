import StackScript.Value.Operator

/-!
# Opcodes

What the instructions of the machine do, their numbers and their names. Some carry an operand, and
the operand of some of these is the place of an instruction.
-/

namespace StackScript

/-- The operations of the machine, and the numbers that name none. -/
inductive Opcode
  /-- Marks a place. -/
  | noop
  | add
  | and
  /-- Allocates a data frame. -/
  | frame
  /-- Makes an array of the size and the fill on the stack. -/
  | makeArray
  /-- Reads a cell of the array in a slot. -/
  | readArray
  /-- Sets a cell of the array in a slot. -/
  | writeArray
  /-- Calls the code at an instruction. -/
  | call
  /-- Calls a host function. -/
  | callHost
  | div
  | eq
  | gt
  /-- Goes on at another instruction. -/
  | jump
  /-- Jumps if the top of the stack is true. -/
  | jumpIf
  /-- Jumps unless the top of the stack is true. -/
  | jumpUnless
  | lt
  /-- Pushes a constant. -/
  | constant
  /-- Pushes the contents of a slot. -/
  | load
  | mod
  | mul
  | ne
  | not
  | or
  /-- Drops the top of the stack. -/
  | pop
  /-- Pushes false. -/
  | push
  /-- Returns to the caller. -/
  | ret
  | sub
  /-- Stores the top of the stack into a slot. -/
  | store
  /-- A number that is not an operation's. -/
  | undefined (code : UInt16)
deriving DecidableEq

namespace Opcode

/-- The operations in the order of their numbers. -/
def all : List Opcode :=
  [noop, add, and, frame, makeArray, readArray, writeArray, call, callHost, div, eq, gt, jump,
    jumpIf, jumpUnless, lt, constant, load, mod, mul, ne, not, or, pop, push, ret, sub, store]

/-- The operation with a given number. -/
def ofCode (code : UInt16) : Opcode := all[code.toNat]?.getD (undefined code)

/-- The number of an operation. -/
def code : Opcode → UInt16
  | noop => 0
  | add => 1
  | and => 2
  | frame => 3
  | makeArray => 4
  | readArray => 5
  | writeArray => 6
  | call => 7
  | callHost => 8
  | div => 9
  | eq => 10
  | gt => 11
  | jump => 12
  | jumpIf => 13
  | jumpUnless => 14
  | lt => 15
  | constant => 16
  | load => 17
  | mod => 18
  | mul => 19
  | ne => 20
  | not => 21
  | or => 22
  | pop => 23
  | push => 24
  | ret => 25
  | sub => 26
  | store => 27
  | undefined n => n

/-- The name of an operation. -/
def name : Opcode → Bytes
  | noop => "NOOP"
  | add => "ADD"
  | and => "AND"
  | frame => "ALLOCDSTK"
  | makeArray => "ARRAYMAKE"
  | readArray => "ARRAYREAD"
  | writeArray => "ARRAYWRITE"
  | call => "CALL"
  | callHost => "CALLSYS"
  | div => "DIV"
  | eq => "EQ"
  | gt => "GT"
  | jump => "JMP"
  | jumpIf => "JMPC"
  | jumpUnless => "JMPN"
  | lt => "LT"
  | constant => "LC"
  | load => "LD"
  | mod => "MOD"
  | mul => "MUL"
  | ne => "NE"
  | not => "NOT"
  | or => "OR"
  | pop => "POP"
  | push => "PUSH"
  | ret => "RET"
  | sub => "SUB"
  | store => "SD"
  | undefined n => "UNKNOWN(" ++ decimal n.toNat ++ ")"

/-- Whether the number of the operation is a defined one. -/
def isValid : Opcode → Bool
  | undefined _ => false
  | _ => true

/-- Whether the operation carries an operand. -/
def hasOperand : Opcode → Bool
  | frame | readArray | writeArray | call | callHost | jump | jumpIf | jumpUnless | constant | load
  | store => true
  | _ => false

/-- Whether the operand is the place of an instruction. -/
def isJump : Opcode → Bool
  | call | jump | jumpIf | jumpUnless => true
  | _ => false

/-- The two-operand operator that the operation applies. -/
def operator? : Opcode → Option Operator
  | add => some .add
  | sub => some .sub
  | mul => some .mul
  | div => some .div
  | mod => some .mod
  | eq => some .eq
  | ne => some .ne
  | gt => some .gt
  | lt => some .lt
  | and => some .and
  | or => some .or
  | _ => none

end Opcode

/-- The operation that applies an operator. -/
def Operator.opcode? : Operator → Option Opcode
  | .add => some .add
  | .sub => some .sub
  | .mul => some .mul
  | .div => some .div
  | .mod => some .mod
  | .eq => some .eq
  | .ne => some .ne
  | .gt => some .gt
  | .lt => some .lt
  | .and => some .and
  | .or => some .or
  | .undefined _ => none

end StackScript
