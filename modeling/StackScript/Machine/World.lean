import StackScript.Image.Instant
import StackScript.Machine.Console
import StackScript.Machine.Random
import StackScript.Value.Coercion

/-!
# The world of a program

All that a program can see and change beside its own stack and frames, which outlives a run: the
arrays, the global variables, the console, the random numbers and the clock. Host functions act on
it; what one has done stays done when it fails.
-/

namespace StackScript

/-- A clock: the readings that it gives, one for each time that it is asked. -/
structure Clock where
  /-- The readings in order. -/
  readings : Nat → Instant
  /-- How often it was asked. -/
  asked : Nat := 0

namespace Clock

/-- A clock that stands still. -/
def still (t : Instant) : Clock := { readings := fun _ => t }

/-- The reading that a clock gives next. -/
def now (c : Clock) : Instant := c.readings c.asked

/-- The clock after it gave a reading. -/
def next (c : Clock) : Clock := { c with asked := c.asked + 1 }

end Clock

/-- What a program shares with its host. -/
structure World where
  /-- The arrays. -/
  store : Store := Store.empty
  /-- The global variables that were set. -/
  globals : List (Bytes × Cell) := []
  /-- Input and output. -/
  console : Console := {}
  /-- The source of random numbers. -/
  generator : Generator := Generator.ofSeed 1
  /-- The source of the time. -/
  clock : Clock := .still ⟨0, 0⟩

/-- Why a host function fails. -/
inductive HostError
  /-- The output takes no more. -/
  | outputFull
  /-- The input cannot be read. -/
  | inputFailed
  /-- An argument that the function looks at is missing. -/
  | missing
  /-- A reason of the function's own. -/
  | failure (text : Bytes)
deriving DecidableEq

/-- The wording of a failure of a host function. -/
def HostError.message : HostError → Bytes
  | outputFull => "output limit"
  | inputFailed => "broken reader"
  | missing => "missing value"
  | failure s => s

/-- What a host function does. -/
abbrev Host := EStateM HostError World

namespace World

/-- A global variable; one that was never set is false. -/
def global (w : World) (name : Bytes) : Cell :=
  match w.globals.find? fun g => g.1 == name with
  | some g => g.2
  | none => some (.boolean false)

/-- The variables with one of them set. -/
def setIn (name : Bytes) (v : Cell) : List (Bytes × Cell) → List (Bytes × Cell)
  | [] => [(name, v)]
  | g :: gs => if g.1 == name then (name, v) :: gs else g :: setIn name v gs

/-- The world with a global variable set. -/
def setGlobal (w : World) (name : Bytes) (v : Cell) : World :=
  { w with globals := setIn name v w.globals }

/-- The global variable that holds the arguments of the program. -/
def argumentsName : Bytes := "命令行参数"

/-- The world with the arguments of the program in an array of one column. -/
def setArguments (w : World) (args : List Bytes) : World :=
  let cells : Array Cell := (args.map fun a => some (.string a)).toArray
  let grid := (Grid.ofCells? args.length 1 cells).getD .empty
  { w with store := w.store.add grid }.setGlobal argumentsName (some (.array w.store.next))

end World

end StackScript
