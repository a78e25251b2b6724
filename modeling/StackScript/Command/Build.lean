import StackScript.Command.Outcome

/-!
# The build command

Compiles a tree file to a listing, a program file or an executable. Options win over the manifest,
and the manifest over what is usual.
-/

namespace StackScript

namespace BuildCommand

/-- How the command is called. -/
def usage : Usage where
  heading := "Usage: cnplc build [options] tree.cbor"
  options :=
    [⟨"I", .text "", "import declaration file"⟩,
      ⟨"L", .text "", "loader stub for exe output"⟩,
      ⟨"T", .text "", "output type: asm, bin or exe (default from cnpl.toml, else bin)"⟩,
      ⟨"o", .text "", "output file, or - for standard output"⟩,
      Usage.verbose]

/-- The mode of what is built. -/
def outputMode (f : Format) : Nat := if f = .executable then 0o755 else 0o644

/-- The first of two texts, unless it is empty. -/
def orElse (s other : Bytes) : Bytes := if s.isEmpty then other else s

/-- The path of what is built from a tree file. -/
def outputPath (choices : Choices) (manifest : Manifest) (f : Format) (input : Bytes) : Bytes :=
  orElse (choices.text "o" "") (orElse manifest.outputPath (Path.withExtension input f.extension))

/-- What was built, and where it goes. -/
structure Built where
  /-- The path to write to. -/
  path : Bytes
  /-- What is written. -/
  data : Bytes
  /-- Its form. -/
  format : Format

variable {m : Type → Type} [Monad m] [Files m]

/-- Builds a tree file in memory. -/
def prepare (s : Surroundings) (choices : Choices) (input : Bytes) :
    ExceptT CommandError m Built := do
  let manifest ← projectManifest
  let name := orElse (choices.text "T" "") manifest.format
  match Format.ofName? name with
  | none => throw (.format name)
  | some f =>
    let usualImports ← (manifest.importsPath : m _)
    let imports := orElse (choices.text "I" "") usualImports
    let loader := orElse (choices.text "L" "") manifest.loaderPath
    let tree ← (loadTree (m := m) input).adapt .tree
    let (tree, st) := tree.store .empty
    let (data, _) ← (produce (m := m) { format := f, imports, loader } st tree s.clock.now).adapt
      .product
    return { path := outputPath choices manifest f input, data, format := f }

/-- Writes what was built. -/
def deliver (s : Surroundings) (b : Built) : ExceptT CommandError m Outcome := do
  if b.path = standardOutput then
    if b.format ≠ .listing ∧ s.terminal then throw (.terminal b.format)
    attempt .file (Files.print b.data)
    return {}
  (replaceFile (m := m) b.path b.data (outputMode b.format)).adapt .output
  return { errors := "Wrote " ++ b.path ++ " (" ++ decimal b.data.length ++ " bytes)\n" }

/-- Builds a tree file and writes what was built. -/
def build (s : Surroundings) (choices : Choices) (input : Bytes) :
    ExceptT CommandError m Outcome := do
  deliver s (← prepare s choices input)

/-- The command. -/
def run (s : Surroundings) (args : List Bytes) : m Action :=
  match readOptions usage.options [] args with
  | .error e => return .finish (usage.refuse e)
  | .ok (choices, [input]) => conclude do return .finish (← build s choices input)
  | .ok _ => return .finish usage.misuse

end BuildCommand

end StackScript
