import StackScript.Command.Build
import StackScript.Command.Declare
import StackScript.Command.Disassemble
import StackScript.Command.Execute

/-!
# The tool

The first argument names a command, and the others belong to it.
-/

namespace StackScript

namespace Tool

/-- The description of the tool. -/
def usage : Bytes :=
  "Usage: cnplc <command> [options] [file]\n\n" ++
    "Commands:\n" ++
    "  build    compile a syntax tree (.cbor) to a listing, bytecode or executable\n" ++
    "  run      compile a syntax tree, or load bytecode/executable, and interpret it\n" ++
    "  dis      disassemble bytecode or an executable\n" ++
    "  imports  write the host library's import declaration file\n" ++
    "\nExamples:\n" ++
    "  cnplc build -T exe -o hello hello.cbor\n" ++
    "  cnplc run hello.bin\n" ++
    "  cnplc imports -o import.def\n"

variable {m : Type → Type} [Monad m] [Files m]

/-- What the tool does with its arguments. -/
def run (s : Surroundings) : List Bytes → m Action
  | [] => return .finish { exit := 2, errors := usage }
  | name :: args =>
    if name == "build" then BuildCommand.run s args
    else if name == "run" then RunCommand.run s args
    else if name == "dis" then DisassembleCommand.run args
    else if name == "imports" then ImportsCommand.run args
    else if name == "-h" || name == "--help" || name == "help" then
      return .finish { errors := usage }
    else
      return .finish
        { exit := 2, errors := "Error: unknown command " ++ quoted name ++ "\n\n" ++ usage }

end Tool

end StackScript
