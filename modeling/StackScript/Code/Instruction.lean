import StackScript.Code.Opcode

/-!
# Instructions

An instruction is an operation and its operand. Until a program is linked the places of its
instructions are not known: a jump or a call names the label it goes to, and the instruction there
carries that label. The operand of a host call holds both the number of arguments and the index of
the function.
-/

namespace StackScript

/-- One instruction. -/
structure Instruction where
  /-- What it does. -/
  op : Opcode
  /-- Its operand, zero if it has none. -/
  operand : UInt64 := 0
  /-- The label of its place, empty if it has none. -/
  label : Bytes := []
  /-- The label that a jump or a call goes to. -/
  target : Bytes := []
  /-- The name of the function that a call calls. -/
  callee : Bytes := []
  /-- The number of arguments of a call. -/
  argc : Int := 0
deriving DecidableEq

/-- What the operand of a host call holds. -/
structure HostCall where
  /-- The number of arguments. -/
  argc : Nat
  /-- The index of the function in the host table. -/
  index : Nat
deriving DecidableEq

namespace HostCall

/-- The largest number of arguments that a call can pass. -/
def maxArguments : Nat := 1023

/-- The operand for a number of arguments, in the upper ten of 32 bits, and an index, in the lower
22. Higher bits of either are lost. -/
def pack (argc index : Int) : UInt64 :=
  UInt64.ofNat ((argc % 1024).toNat * 0x400000 + (index % 0x400000).toNat)

/-- What an operand holds; its upper 32 bits are ignored. -/
def unpack (operand : UInt64) : HostCall where
  argc := operand.toNat % 0x100000000 / 0x400000
  index := operand.toNat % 0x400000

end HostCall

namespace Instruction

/-- An instruction as listings show it. -/
def text (i : Instruction) : Bytes :=
  match i.op with
  | .callHost =>
    let c := HostCall.unpack i.operand
    i.op.name ++ " " ++ decimal c.argc ++ " " ++ decimal c.index
  | op => if op.hasOperand then op.name ++ " " ++ decimal i.operand.toNat else op.name

end Instruction

end StackScript
