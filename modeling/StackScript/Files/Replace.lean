import StackScript.Files.Access
import StackScript.Files.Path

/-!
# Replacing files

A file is replaced by writing a temporary file beside it and moving that into its place, so the
path never holds a part of the new contents. When a step fails the temporary file is taken away.
-/

namespace StackScript

/-- Why a file cannot be replaced. -/
inductive ReplaceError
  | create (directory : Bytes) (e : FileError)
  | write (path : Bytes) (e : FileError)
  | setMode (path : Bytes) (e : FileError)
  | replace (path : Bytes) (e : FileError)
deriving DecidableEq

namespace ReplaceError

/-- The failed attempt. -/
def cause : ReplaceError → FileError
  | create _ e | write _ e | setMode _ e | replace _ e => e

/-- The wording of why a file cannot be replaced. -/
def message : ReplaceError → Bytes
  | create directory e => "cannot create output in " ++ directory ++ ": " ++ e.message
  | write path e => "cannot write " ++ path ++ ": " ++ e.message
  | setMode path e => "cannot set mode on " ++ path ++ ": " ++ e.message
  | replace path e => "cannot replace " ++ path ++ ": " ++ e.message

end ReplaceError

variable {m : Type → Type} [Monad m] [Files m]

/-- The start of the names of the temporary files for a path. -/
def temporaryStem (path : Bytes) : Bytes := "." ++ Path.base path ++ "."

/-- Fills a temporary file. -/
def fill (temporary path data : Bytes) (mode : Nat) : ExceptT ReplaceError m Unit := do
  attempt (.write path) (Files.write temporary data)
  attempt (.setMode path) (Files.setMode temporary mode)

/-- Fills a temporary file and moves it to its place. A file that cannot be filled is closed as
well, and whether that succeeds does not count. -/
def fillAndMove (temporary path data : Bytes) (mode : Nat) : ExceptT ReplaceError m Unit := do
  tryCatch (fill temporary path data mode) fun e => do
    let _ ← (Files.close temporary : m _)
    throw e
  attempt (.write path) (Files.close temporary)
  attempt (.replace path) (Files.rename temporary path)

/-- Replaces the file at a path, or makes it if there is none. -/
def replaceFile (path data : Bytes) (mode : Nat) : ExceptT ReplaceError m Unit := do
  let directory := Path.parent path
  let temporary ← attempt (.create directory) (Files.makeTemporary directory (temporaryStem path))
  tryCatch (fillAndMove temporary path data mode) fun e => do
    monadLift (Files.remove (m := m) temporary)
    throw e

end StackScript
