import StackScript.Files.Error

/-!
# Access to files

The steps in which a program uses a file system, whichever it is, and its standard output. A
temporary file is made under a new name, then written, given its mode and closed, and takes the
place of another file when it is renamed.
-/

namespace StackScript

/-- The steps that a file system offers. -/
class Files (m : Type → Type) where
  /-- The directory that relative paths start at. -/
  workingDirectory : m (Except FileError Bytes)
  /-- Whether anything stands at a path. -/
  isPresent (path : Bytes) : m Bool
  /-- The contents of a file. -/
  read (path : Bytes) : m (Except FileError Bytes)
  /-- Makes an empty file in a directory, under a new name that starts with `stem`, and gives its
  path. -/
  makeTemporary (directory stem : Bytes) : m (Except FileError Bytes)
  /-- Writes the contents of a file that was made. -/
  write (path data : Bytes) : m (Except FileError Unit)
  /-- Sets the mode of a file that was made. -/
  setMode (path : Bytes) (mode : Nat) : m (Except FileError Unit)
  /-- Ends the work on a file that was made. -/
  close (path : Bytes) : m (Except FileError Unit)
  /-- Moves a file, in place of the file that stands at the target. -/
  rename (source target : Bytes) : m (Except FileError Unit)
  /-- Takes a file away. -/
  remove (path : Bytes) : m Unit
  /-- Writes to the standard output. -/
  print (data : Bytes) : m (Except FileError Unit)

/-- The name of the standard output in errors. -/
def standardOutputName : Bytes := "/dev/stdout"

/-- A step whose failure is given a cause. -/
def attempt [Monad m] (cause : FileError → ε) (step : m (Except FileError α)) : ExceptT ε m α :=
  ExceptT.mk do return (← step).mapError cause

end StackScript
