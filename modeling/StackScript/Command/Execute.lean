import StackScript.Command.Outcome

/-!
# The run command

Runs a program: a tree file is compiled against the standard functions of the host, and any other
file is a program file or an executable.
-/

namespace StackScript

namespace RunCommand

/-- How the command is called. -/
def usage : Usage where
  heading :=
    "Usage: cnplc run [options] file [args...]\n\n" ++
      "file is a syntax tree (.cbor), bytecode or an executable."
  options :=
    [⟨"I", .text "", "extra import declaration file (tree input only)"⟩,
      ⟨"seed", .number, "random seed (default from cnpl.toml, else time based)"⟩,
      Usage.verbose]

/-- The ending of the names of tree files. -/
def treeExtension : Bytes := ".cbor"

/-- The declarations of the standard functions of the host. -/
def standardImports : List Import := Host.standard.map fun f => ⟨f.name, f.minimum⟩

variable {m : Type → Type} [Monad m] [Files m]

/-- The program of a tree file, with the store that holds its arrays. -/
def compileFile (path imports : Bytes) : ExceptT CommandError m (Program × Store) := do
  let tree ← (loadTree (m := m) path).adapt .tree
  let (tree, st) := tree.store .empty
  let c := ({} : Compilation).declareImports standardImports
  let c ← (c.loadImportFile (m := m) imports).adapt .imports
  match c.build tree with
  | .ok p => return (p, st)
  | .error e => throw (.build e)

/-- The program in a file, with the store that holds its arrays. -/
def load (path imports : Bytes) : ExceptT CommandError m (Program × Store) := do
  if equalFold (Path.extension path) treeExtension then compileFile path imports
  else
    let data ← attempt .file (Files.read path)
    match Image.load data with
    | .ok image => return image.program .empty
    | .error e => throw (.program e)

/-- The first of some seeds that is not zero, and the last one without such. -/
def chooseSeed (option manifest other : UInt64) : UInt64 :=
  if option ≠ 0 then option else if manifest ≠ 0 then manifest else other

/-- What sets the colours of a terminal back when a program has ended. -/
def restoration (s : Surroundings) : Bytes := if s.terminal then "\x1b[0m" else []

/-- The program in a file and the world to run it in. -/
def prepare (s : Surroundings) (choices : Choices) (input : Bytes) (args : List Bytes) :
    ExceptT CommandError m Action := do
  let manifest ← projectManifest
  let (p, store) ← load input (choices.text "I" "")
  let seed := chooseSeed (choices.number "seed") manifest.seed s.seed
  let w : World :=
    { store, console := { input := s.input }, generator := .ofSeed seed, clock := s.clock }
  return .execute p (w.setArguments (input :: args)) (restoration s)

/-- The command. -/
def run (s : Surroundings) (args : List Bytes) : m Action :=
  match readOptions usage.options [] args with
  | .error e => return .finish (usage.refuse e)
  | .ok (choices, input :: args) => conclude (prepare s choices input args)
  | .ok (_, []) => return .finish usage.misuse

end RunCommand

end StackScript
