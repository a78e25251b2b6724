import StackScript.Command.Outcome

/-!
# The imports command

Writes the import file that declares the standard functions of the host.
-/

namespace StackScript

namespace ImportsCommand

/-- How the command is called. -/
def usage : Usage where
  heading := "Usage: cnplc imports [-o file]"
  options :=
    [⟨"o", .text standardOutput, "output file (" ++ Manifest.importsName ++ " by convention)"⟩,
      Usage.verbose]

/-- The mode of an import file. -/
def fileMode : Nat := 0o644

variable {m : Type → Type} [Monad m] [Files m]

/-- Writes the import file. -/
def write (path : Bytes) : ExceptT CommandError m Outcome := do
  let data := HostFunction.declarations Host.standard
  if path = standardOutput then
    -- Whether standard output takes it does not count.
    let _ ← (Files.print data : m _)
    return {}
  (replaceFile (m := m) path data fileMode).adapt .output
  return {}

/-- The command. -/
def run (args : List Bytes) : m Action :=
  match readOptions usage.options [] args with
  | .error e => return .finish (usage.refuse e)
  | .ok (choices, _) => conclude do return .finish (← write (choices.text "o" standardOutput))

end ImportsCommand

end StackScript
