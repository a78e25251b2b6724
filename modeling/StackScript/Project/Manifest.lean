import StackScript.Files.Access
import StackScript.Files.Path
import StackScript.Text.Fold
import StackScript.Toml.Table

/-!
# Project manifests

A project may have a settings file that says how it is built and run. It is looked for in a
directory and in those above it. Paths in it are relative to the directory that it is in.
-/

namespace StackScript

/-- The settings of a project. -/
structure Manifest where
  /-- The name of the project. -/
  name : Bytes := []
  /-- The version of the project. -/
  version : Bytes := []
  /-- The name of the form in which the program is written out. -/
  format : Bytes := []
  /-- The path of what is built. -/
  output : Bytes := []
  /-- The path of the import file. -/
  imports : Bytes := []
  /-- The path of the loader of executables. -/
  loader : Bytes := []
  /-- Where random numbers start; zero leaves it open. -/
  seed : UInt64 := 0
  /-- The directory of the manifest. -/
  directory : Bytes := []
deriving DecidableEq

/-- Why a manifest cannot be loaded. -/
inductive ManifestError
  /-- The directory to start at cannot be found. -/
  | noDirectory (e : FileError)
  | unreadable (path : Bytes) (e : FileError)
  | malformed (path : Bytes) (e : Toml.TomlError)
  /-- The directory of the manifest has no path from the root. -/
  | unresolved (directory : Bytes) (e : FileError)
deriving DecidableEq

/-- The wording of why a manifest cannot be loaded. -/
def ManifestError.message : ManifestError → Bytes
  | noDirectory e => e.message
  | unreadable path e => "cannot read " ++ path ++ ": " ++ e.message
  | malformed path e => "parse error in " ++ path ++ ": " ++ e.message
  | unresolved directory e => "cannot resolve path " ++ directory ++ ": " ++ e.message

namespace Manifest

/-- The name of the file of a manifest. -/
def fileName : Bytes := "cnpl.toml"

/-- The name that an import file has by convention. -/
def importsName : Bytes := "import.amd64.linux.def"

/-- The name that a loader has by convention. -/
def loaderName : Bytes := "link.linux.amd64.Loader"

/-- The form that a program is written out in unless a manifest says otherwise. -/
def defaultFormat : Bytes := "bin"

/-- A setting: what a manifest becomes when something is given for it. -/
abbrev Setting := Toml.Node → Manifest → Option Manifest

/-- A setting that is a text. -/
def textSetting (change : Bytes → Manifest → Manifest) : Setting
  | .leaf (.string s), m => some (change s m)
  | _, _ => none

/-- A setting that is a number. A negative one counts modulo 2^64. -/
def numberSetting (change : UInt64 → Manifest → Manifest) : Setting
  | .leaf (.integer n), m => some (change n.toUInt64 m)
  | _, _ => none

/-- The settings by the names of their tables and their own. -/
def settings : List (Bytes × List (Bytes × Setting)) :=
  [("project",
      [("name", textSetting fun s m => { m with name := s }),
        ("version", textSetting fun s m => { m with version := s })]),
    ("build",
      [("format", textSetting fun s m => { m with format := s }),
        ("output", textSetting fun s m => { m with output := s }),
        ("imports", textSetting fun s m => { m with imports := s }),
        ("loader", textSetting fun s m => { m with loader := s })]),
    ("run", [("seed", numberSetting fun n m => { m with seed := n })])]

/-- What a table of names has for a name, in upper or lower case. -/
def lookupFold (name : Bytes) (table : List (Bytes × α)) : Option α :=
  (table.find? fun e => equalFold name e.1).map (·.2)

/-- Applies the settings in a table; names that are none are passed over. -/
def applyTable (known : List (Bytes × Setting)) (group : Bytes) :
    Toml.Table → Manifest → Except Toml.TomlError Manifest
  | [], m => .ok m
  | (name, node) :: rest, m =>
    match lookupFold name known with
    | none => applyTable known group rest m
    | some setting =>
      match setting node m with
      | none => .error (.mismatch [group, name])
      | some m => applyTable known group rest m

/-- Applies the settings in the tables of a manifest; names that are none are passed over. -/
def applyTables (document : Toml.Document) :
    Toml.Table → Manifest → Except Toml.TomlError Manifest
  | [], m => .ok m
  | (name, node) :: rest, m =>
    match lookupFold name settings with
    | none => applyTables document rest m
    | some known =>
      match node with
      | .table n =>
        match applyTable known name (document.get n) m with
        | .error e => .error e
        | .ok m => applyTables document rest m
      | _ => .error (.mismatch [name])

/-- The manifest with the usual form if it names none. -/
def complete (m : Manifest) : Manifest :=
  if m.format.isEmpty then { m with format := defaultFormat } else m

/-- The settings in the text of a manifest. -/
def parse (text : Bytes) : Except Toml.TomlError Manifest := do
  let document ← Toml.read text
  return (← applyTables document document.root {}).complete

/-- The path that a path in a manifest stands for. -/
def resolve (m : Manifest) (path : Bytes) : Bytes :=
  if path.isEmpty || Path.isAbsolute path then path else Path.join m.directory path

/-- The path of what is built, if the manifest gives one. -/
def outputPath (m : Manifest) : Bytes := m.resolve m.output

/-- The path of the loader. -/
def loaderPath (m : Manifest) : Bytes :=
  if m.loader.isEmpty then Path.join m.directory loaderName else m.resolve m.loader

section Access

variable {m : Type → Type} [Monad m] [Files m]

/-- The path of the import file: the given one, or the usual one if it is there. -/
def importsPath (manifest : Manifest) : m Bytes := do
  if !manifest.imports.isEmpty then return manifest.resolve manifest.imports
  let path := Path.join manifest.directory importsName
  return if ← Files.isPresent path then path else []

/-- A path from the root. -/
def absolute (path : Bytes) : m (Except FileError Bytes) := do
  if Path.isAbsolute path then return .ok (Path.clean path)
  return (← Files.workingDirectory).map fun directory => Path.join directory path

/-- Loads the manifest in a directory. -/
def load (directory : Bytes) : ExceptT ManifestError m Manifest := do
  let path := Path.join directory fileName
  match parse (← attempt (.unreadable path) (Files.read path)) with
  | .error e => throw (.malformed path e)
  | .ok manifest =>
    let directory ← attempt (.unresolved directory) (absolute directory)
    return { manifest with directory }

/-- Loads the manifest in the first of some directories that has one. -/
def loadFirst : List Bytes → ExceptT ManifestError m (Option Manifest)
  | [] => return none
  | directory :: rest => do
    if ← (Files.isPresent (Path.join directory fileName) : m _) then
      return some (← load directory)
    loadFirst rest

/-- Loads the manifest in a directory or the nearest one above it. -/
def find (directory : Bytes) : ExceptT ManifestError m (Option Manifest) := do
  loadFirst (Path.ancestors (← attempt .noDirectory (absolute directory)))

end Access

end Manifest

end StackScript
