import StackScript.Code.Program

/-!
# Listings

Two texts of a program for people to read: the plain listing, which every program has, and the
disassembly, which numbers the instructions and says what their operands stand for.
-/

namespace StackScript.Program

/-- The plain listing: the constants, then the instructions, one a line. -/
def listing (st : Store) (p : Program) : Bytes :=
  let constant (c : Cell × Nat) : Bytes := decimal c.2 ++ " : " ++ c.1.render st ++ "\n"
  let line (i : Instruction) : Bytes := i.text ++ "\n"
  "VALUE BEGIN\n" ++ p.constants.toList.zipIdx.flatMap constant ++ "VALUE END\n" ++
    "PROG BEGIN\n" ++ p.code.toList.flatMap line ++ "PROG END\n"

/-- What the operand of an instruction stands for: the constant, or the label of the place. -/
def remark (st : Store) (p : Program) (i : Instruction) : Bytes :=
  match i.op, p.constants[i.operand.toNat]? with
  | .constant, some c => "\t; " ++ c.render st
  | op, _ =>
    if !op.isJump then ""
    else if p.code.size ≤ i.operand.toNat then "\t; out of range"
    else if i.target.isEmpty then ""
    else "\t; " ++ i.target

/-- A line of the disassembly for a constant, which must be there. -/
def constantLine? (st : Store) (c : Cell × Nat) : Option Bytes :=
  c.1.map fun v =>
    "const " ++ padSpaces 4 (decimal c.2) ++ " " ++ padSpaces 7 v.kind.name ++ " " ++ v.text st ++
      "\n"

/-- The disassembly, unless a constant is missing. -/
def disassembly? (st : Store) (p : Program) : Option Bytes := do
  let constants ← p.constants.toList.zipIdx.mapM (constantLine? st)
  let stamp : Bytes :=
    if p.created = .zero then "" else "; created " ++ p.created.text ++ "\n"
  let line (i : Instruction × Nat) : Bytes :=
    padZeros 4 (decimal i.2) ++ "  " ++ i.1.text ++ p.remark st i.1 ++ "\n"
  return stamp ++ "; " ++ decimal p.constants.size ++ " constants, " ++ decimal p.code.size ++
    " instructions\n" ++ constants.flatten ++ p.code.toList.zipIdx.flatMap line

end StackScript.Program
