import StackScript.Command.Options
import StackScript.Machine.Run
import StackScript.Project.Manifest
import StackScript.Project.Product

/-!
# Outcomes of a command

What a command ends with: an exit code and what it writes, or a program that is to be run.
-/

namespace StackScript

/-- What a command takes from its surroundings, beside files. -/
structure Surroundings where
  /-- The source of the time. -/
  clock : Clock
  /-- Where random numbers start unless they are told otherwise. -/
  seed : UInt64
  /-- The standard input. -/
  input : Bytes
  /-- Whether the standard output is a terminal. -/
  terminal : Bool := false

/-- The end of a command. -/
structure Outcome where
  /-- The exit code. -/
  exit : UInt8 := 0
  /-- What is written to standard output. -/
  output : Bytes := []
  /-- What is written to standard error. -/
  errors : Bytes := []
deriving DecidableEq

/-- What is left to do when the arguments of a command are worked out. -/
inductive Action
  | finish (o : Outcome)
  /-- Runs a program in a world, and writes a text behind what it wrote. -/
  | execute (p : Program) (w : World) (last : Bytes)

/-- Why a command fails. -/
inductive CommandError
  | manifest (e : ManifestError)
  | format (name : Bytes)
  | tree (e : TreeFileError)
  | imports (e : ImportFileError)
  | build (e : BuildError)
  | product (e : ProductError)
  /-- A program file or an executable would go to a terminal. -/
  | terminal (f : Format)
  | output (e : ReplaceError)
  | file (e : FileError)
  | program (e : ImageError)
  /-- The program in a file cannot be had. -/
  | programFile (path : Bytes) (e : ImageError)
  /-- The program cannot be written out. -/
  | listing
deriving DecidableEq

/-- The wording of why a command fails. -/
def CommandError.message : CommandError → Bytes
  | manifest e => "loading manifest: " ++ e.message
  | format name => Format.unknownMessage name
  | tree e => e.message
  | imports e => e.message
  | build e => e.message
  | product e => e.message
  | terminal f => "refusing to write " ++ f.name ++ " output to a terminal"
  | output e => e.message
  | file e => e.message
  | program e => e.message
  | programFile path e => path ++ ": " ++ e.message
  | listing => "missing value"

namespace Outcome

/-- A command that fails. -/
def failure (message : Bytes) : Outcome := { exit := 1, errors := "Error: " ++ message ++ "\n" }

/-- A program that ended, or failed, with what it had written. -/
def ofRun : EStateM.Result RunError State Int64 → Outcome
  | .ok code s => { exit := code.toUInt64.toUInt8, output := s.world.console.output.toList }
  | .error e s => { failure e.message with output := s.world.console.output.toList }

/-- The outcome with more written to standard output. -/
def followedBy (o : Outcome) (last : Bytes) : Outcome := { o with output := o.output ++ last }

end Outcome

/-- The outcome of what is left to do, when a program may run for so many blocks of instructions. -/
def Action.outcome (blocks : Nat) : Action → Outcome
  | finish o => o
  | execute p w last => (Outcome.ofRun (run p Host.standard.toArray blocks w)).followedBy last

/-- What a command is called with. -/
structure Usage where
  /-- The lines in front of the list of options. -/
  heading : Bytes
  /-- The options, by name. -/
  options : List OptionSpec

namespace Usage

/-- The description of a command. -/
def text (u : Usage) : Bytes := u.heading ++ "\n\nOptions:\n" ++ u.options.flatMap OptionSpec.usage

/-- The end of a command that is called the wrong way. -/
def misuse (u : Usage) : Outcome := { exit := 2, errors := u.text }

/-- The end of a command whose options are wrong, or that is asked for help. -/
def refuse (u : Usage) : OptionError → Outcome
  | .help => { errors := u.text }
  | e => { exit := 2, errors := e.message ++ "\n" ++ u.text }

/-- The option that asks for more messages. -/
def verbose : OptionSpec := ⟨"v", .count, "verbose logging (repeat for debug output)"⟩

end Usage

/-- The path that means standard output. -/
def standardOutput : Bytes := "-"

variable {m : Type → Type} [Monad m] [Files m]

/-- The manifest of the project that the working directory is in, or one without settings. -/
def projectManifest : ExceptT CommandError m Manifest := do
  match ← (Manifest.find (m := m) ".").adapt .manifest with
  | some manifest => return manifest
  | none =>
    let directory := ((← (Files.workingDirectory : m _)).toOption).getD []
    return { directory, format := Manifest.defaultFormat }

/-- The end of a command that may fail. -/
def conclude (c : ExceptT CommandError m Action) : m Action := do
  match ← c.run with
  | .ok a => return a
  | .error e => return .finish (.failure e.message)

end StackScript
