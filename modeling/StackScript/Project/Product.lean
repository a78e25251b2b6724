import StackScript.Compile.Build
import StackScript.Files.Replace
import StackScript.Tree.File

/-!
# Products

From files to what is made of them: a tree file is loaded, compiled against the functions that are
declared in an import file, and written out in one of the forms of an artifact. Everything is made
in memory, so a failure leaves all files as they are.
-/

namespace StackScript

/-- Why the tree in a file cannot be had. -/
inductive TreeFileError
  | unreadable (path : Bytes) (e : FileError)
  | malformed (path : Bytes) (e : TreeError)
deriving DecidableEq

/-- The wording of why the tree in a file cannot be had. -/
def TreeFileError.message : TreeFileError → Bytes
  | unreadable path e => "cannot read " ++ path ++ ": " ++ e.message
  | malformed path e => path ++ ": " ++ e.message

/-- Why the declarations in a file cannot be had. -/
inductive ImportFileError
  | unreadable (e : FileError)
  | malformed (path : Bytes) (e : ImportError)
deriving DecidableEq

/-- The wording of why the declarations in a file cannot be had. -/
def ImportFileError.message : ImportFileError → Bytes
  | unreadable e => "cannot open import file: " ++ e.message
  | malformed path e => path ++ ": " ++ e.message

/-- Why there is no product. -/
inductive ProductError
  | imports (e : ImportFileError)
  | build (e : BuildError)
  /-- No file is named for the loader that an executable needs. -/
  | noLoaderFile
  | loader (e : FileError)
  | artifact (e : ArtifactError)
deriving DecidableEq

/-- The wording of why there is no product. -/
def ProductError.message : ProductError → Bytes
  | imports e => e.message
  | build e => e.message
  | noLoaderFile => "executable output needs a loader stub file"
  | loader e => "cannot read loader stub: " ++ e.message
  | artifact e => e.message

/-- What is made of a tree. -/
structure ProductOptions where
  /-- The form to write. -/
  format : Format
  /-- The path of the import file; none if it is empty. -/
  imports : Bytes := []
  /-- The functions that are declared behind those of the import file. -/
  extra : List Import := []
  /-- The path of the loader. -/
  loader : Bytes := []

variable {m : Type → Type} [Monad m] [Files m]

/-- The tree in a file. -/
def loadTree (path : Bytes) : ExceptT TreeFileError m (Tree Datum) := do
  let data ← attempt (.unreadable path) (Files.read path)
  match Tree.read data with
  | .ok t => return t
  | .error e => throw (.malformed path e)

/-- Why an import file that cannot be read has no declarations: it cannot be opened, or reading
stops in it. -/
def ImportFileError.ofFile (path : Bytes) (e : FileError) : ImportFileError :=
  match e.action with
  | .readFile _ => .malformed path (.unreadable e.message)
  | _ => .unreadable e

/-- A compilation with the functions of an import file declared; an empty path names none. -/
def Compilation.loadImportFile (c : Compilation) (path : Bytes) :
    ExceptT ImportFileError m Compilation := do
  if path.isEmpty then return c
  let text ← attempt (.ofFile path) (Files.read path)
  match Compilation.loadImports text c with
  | .ok _ c => return c
  | .error e _ => throw (.malformed path e)

/-- The loader for a form: only an executable needs one. -/
def loadLoader (o : ProductOptions) : ExceptT ProductError m Bytes := do
  if o.format ≠ .executable then return []
  if o.loader.isEmpty then throw .noLoaderFile
  attempt .loader (Files.read o.loader)

/-- The artifact of a tree, stamped with a time, and its program. -/
def produce (o : ProductOptions) (st : Store) (t : Tree Cell) (now : Instant) :
    ExceptT ProductError m (Bytes × Program) := do
  let c ← (({} : Compilation).loadImportFile (m := m) o.imports).adapt .imports
  match (c.declareImports o.extra).build t with
  | .error e => throw (.build e)
  | .ok p =>
    let loader ← loadLoader o
    match p.artifact st o.format loader now with
    | .error e => throw (.artifact e)
    | .ok data => return (data, p)

end StackScript
