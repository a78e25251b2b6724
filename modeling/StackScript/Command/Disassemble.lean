import StackScript.Command.Outcome

/-!
# The disassembly command

Writes the program in a program file or an executable as text.
-/

namespace StackScript

namespace DisassembleCommand

/-- How the command is called. -/
def usage : Usage where
  heading := "Usage: cnplc dis [options] file"
  options :=
    [⟨"listing", .switch, "print the plain listing instead of the annotated disassembly"⟩,
      Usage.verbose]

variable {m : Type → Type} [Monad m] [Files m]

/-- The text of the program in a file. -/
def describe (listing : Bool) (path : Bytes) : ExceptT CommandError m Bytes := do
  let data ← attempt .file (Files.read path)
  match Image.load data with
  | .error e => throw (.programFile path e)
  | .ok image =>
    let (p, st) := image.program .empty
    if listing then return p.listing st
    match p.disassembly? st with
    | some text => return text
    | none => throw .listing

/-- Writes the text of the program in a file. -/
def write (listing : Bool) (path : Bytes) : ExceptT CommandError m Outcome := do
  attempt .file (Files.print (← describe (m := m) listing path))
  return {}

/-- The command. -/
def run (args : List Bytes) : m Action :=
  match readOptions usage.options [] args with
  | .error e => return .finish (usage.refuse e)
  | .ok (choices, [path]) => conclude do return .finish (← write (choices.isOn "listing") path)
  | .ok _ => return .finish usage.misuse

end DisassembleCommand

end StackScript
