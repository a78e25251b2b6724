import StackScript.Code.Program
import StackScript.Machine.Host

/-!
# States of the machine

The machine works on a calculation stack and one data frame for each call that is under way. A
call leaves the frame of the caller in place: until the callee allocates a frame of its own, both
use the same one.
-/

namespace StackScript

/-- Why an instruction fails. -/
inductive Fault
  | stackUnderflow
  | slotOutOfRange (slot size : Nat)
  | constantOutOfRange (index : Nat)
  | jumpOutOfRange (place : Nat)
  | hostOutOfRange (index : Nat)
  | notArray (slot : Nat) (kind : Kind)
  | indexOutOfRange (e : IndexError)
  | frameTooLarge (slots : Nat)
  | arraySize (e : SizeError)
  | divideByZero
  | noCaller
  | unknownOpcode (code : UInt16)
  /-- A value that the instruction looks at is missing. -/
  | missingValue
  /-- A host function fails. -/
  | host (name : Bytes) (e : HostError)
deriving DecidableEq

/-- What a call leaves behind for its return. -/
structure Caller where
  /-- The place of the instruction to go on at. -/
  resume : Nat
  /-- The frame of the caller, unless the callee still uses it. -/
  frame : Option (Array Cell)

/-- A state of the machine. -/
structure State where
  /-- The place of the next instruction. -/
  place : Nat
  /-- The calculation stack, its top first. -/
  stack : List Cell
  /-- The data frame in use. -/
  frame : Array Cell
  /-- The calls under way, the latest first. -/
  callers : List Caller
  /-- What the program shares with its host. -/
  world : World

/-- The state in which a run of a program of `size` instructions begins. -/
def State.start (size : Nat) (world : World) : State where
  place := 0
  stack := []
  frame := #[]
  callers := [⟨size, some #[]⟩]
  world := world

/-- What an instruction does to the state. -/
abbrev Exec := EStateM Fault State

end StackScript
