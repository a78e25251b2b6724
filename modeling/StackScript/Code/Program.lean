import StackScript.Code.Instruction
import StackScript.Image.Instant

/-!
# Programs

A linked program: the constants that its instructions load, and the instructions, whose jumps and
calls hold the places of other instructions.
-/

namespace StackScript

/-- A linked program. -/
structure Program where
  /-- The constants in index order. -/
  constants : Array Cell
  /-- The instructions. -/
  code : Array Instruction
  /-- When the program was stamped. -/
  created : Instant := Instant.zero

end StackScript
