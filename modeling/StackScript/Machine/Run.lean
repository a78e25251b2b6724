import StackScript.Machine.Step

/-!
# Runs of the machine

A run executes instructions until the place leaves the program; then the top of the stack is the
result. A run can be cancelled: the machine asks whether it was before every block of 4096
instructions, so a run that is granted a number of blocks ends within so many instructions.
-/

namespace StackScript

/-- Why a run has no result. -/
inductive RunError
  /-- The run was cancelled. -/
  | cancelled
  /-- An instruction fails. -/
  | fault (place : Nat) (i : Instruction) (f : Fault)
  /-- The stack is empty at the end. -/
  | noResult
  /-- The result is missing. -/
  | missingResult
deriving DecidableEq

/-- The wording of the end of a run without a result. -/
def RunError.message : RunError → Bytes
  | cancelled => "context canceled"
  | fault place i f => "at " ++ decimal place ++ " (" ++ i.text ++ "): " ++ f.message
  | noResult => "program left no result: " ++ Fault.stackUnderflow.message
  | missingResult => "missing value"

/-- The number of instructions between two questions whether the run was cancelled. -/
def blockSize : Nat := 4096

/-- The result of a run whose place has left the program, and the state without it. -/
def result (s : State) : EStateM.Result RunError State Int64 :=
  match Exec.pop s with
  | .ok (some v) s => .ok v.toReal.toInt64 s
  | .ok none s => .error .missingResult s
  | .error _ s => .error .noResult s

/-- Executes at most `fuel` instructions, and is cancelled if that is not enough. -/
def runWithin (p : Program) (hosts : Array HostFunction) :
    Nat → State → EStateM.Result RunError State Int64
  | fuel, s =>
    match p.code[s.place]? with
    | none => result s
    | some i =>
      match fuel with
      | 0 => .error .cancelled s
      | fuel + 1 =>
        let place := s.place
        match step p hosts i s with
        | .ok _ s => runWithin p hosts fuel s
        | .error f s => .error (.fault place i f) s

/-- Runs a program for at most a number of blocks of instructions. -/
def run (p : Program) (hosts : Array HostFunction) (blocks : Nat) (world : World) :
    EStateM.Result RunError State Int64 :=
  runWithin p hosts (blocks * blockSize) (State.start p.code.size world)

end StackScript
