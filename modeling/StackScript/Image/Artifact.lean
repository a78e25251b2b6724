import StackScript.Code.Listing
import StackScript.Image.Executable
import StackScript.Text.Fold
import StackScript.Text.Quoted

/-!
# Artifacts

The forms in which a program is written out: a listing, a program file or an executable.
-/

namespace StackScript

/-- The forms of an artifact, and the numbers that name none. -/
inductive Format
  | listing
  | bytecode
  | executable
  /-- A number that is not a form's. -/
  | undefined (code : Int)
deriving DecidableEq

namespace Format

/-- The form with a given number. -/
def ofCode (code : Int) : Format :=
  if code = 0 then listing
  else if code = 1 then bytecode
  else if code = 2 then executable
  else undefined code

/-- The number of a form. -/
def code : Format → Int
  | listing => 0
  | bytecode => 1
  | executable => 2
  | undefined n => n

/-- The name of a form. -/
def name : Format → Bytes
  | listing => "asm"
  | bytecode => "bin"
  | executable => "exe"
  | undefined n => "Format(" ++ decimalInt n ++ ")"

/-- The ending of the names of files of a form. -/
def extension (f : Format) : Bytes := "." ++ f.name

/-- The form with a given name, in upper or lower case. -/
def ofName? (s : Bytes) : Option Format :=
  [listing, bytecode, executable].find? fun f => equalFold s f.name

/-- The wording for a name that is no form's. -/
def unknownMessage (s : Bytes) : Bytes :=
  "unknown output format " ++ quoted s ++ " (want asm, bin or exe)"

end Format

/-- Why an artifact cannot be made. -/
inductive ArtifactError
  /-- The program cannot be written to a file. -/
  | image (e : ImageError)
  /-- An executable needs a loader. -/
  | noLoader
  /-- There is no such form. -/
  | unsupported (f : Format)
deriving DecidableEq

/-- The wording of a failure to make an artifact. -/
def ArtifactError.message : ArtifactError → Bytes
  | image e => e.message
  | noLoader => "executable output needs a loader stub"
  | unsupported f => "unsupported output format " ++ f.name

/-- The artifact of a program in a given form, stamped with a time where the form has room for
it. -/
def Program.artifact (st : Store) (p : Program) (f : Format) (loader : Bytes) (now : Instant) :
    Except ArtifactError Bytes :=
  match f with
  | .listing => .ok (p.listing st)
  | f =>
    match p.encode st now with
    | .error e => .error (.image e)
    | .ok image =>
      match f with
      | .executable =>
        if loader.isEmpty then .error .noLoader else .ok (Executable.pack loader image)
      | .undefined n => .error (.unsupported (.undefined n))
      | _ => .ok image

end StackScript
