import StackScript.Compile.Imports
import StackScript.Image.Artifact
import StackScript.Link.Calls
import StackScript.Link.Labels

/-!
# Building programs

From a tree to a linked program: the functions of the host are declared, code is generated and
linked.
-/

namespace StackScript

/-- Why a tree gives no program. -/
inductive BuildError
  | compile (e : CompileError)
  | link (e : LinkError)
deriving DecidableEq

/-- The wording of why a tree gives no program. -/
def BuildError.message : BuildError → Bytes
  | compile e => e.message
  | link e => e.message

namespace Compilation

/-- The linked code of a compilation. -/
def linkedCode (c : Compilation) : Except LinkError (Array Instruction) := do
  let code ← linkCalls c.symbols c.code.toList
  let code ← linkLabels code
  return code.toArray

/-- The linked program of a compilation, and the compilation with the linked code. -/
def link (c : Compilation) : Except LinkError (Program × Compilation) := do
  let code ← c.linkedCode
  return ({ constants := c.pool.entries, code }, { c with code })

/-- The linked program of a tree in a compilation. -/
def build (c : Compilation) (t : Tree Cell) : Except BuildError Program :=
  match t.generate c with
  | .error e _ => .error (.compile e)
  | .ok _ c =>
    match c.link with
    | .error e => .error (.link e)
    | .ok (p, _) => .ok p

end Compilation

/-- The linked program of a tree that calls the given functions of the host. -/
def compile (t : Tree Cell) (imports : List Import) : Except BuildError Program :=
  ({} : Compilation).declareImports imports |>.build t

end StackScript
