import StackScript.Text.Bytes

/-!
# File errors

What is attempted on a file, and why it fails.
-/

namespace StackScript

/-- What is attempted. -/
inductive FileAction
  /-- Finds the working directory. -/
  | findDirectory
  | openFile (path : Bytes)
  | readFile (path : Bytes)
  /-- Makes a file under a name of the given pattern that is not in use. -/
  | makeTemporary (pattern : Bytes)
  | writeFile (path : Bytes)
  | setMode (path : Bytes)
  | closeFile (path : Bytes)
  | renameFile (source target : Bytes)
deriving DecidableEq

/-- The wording of what is attempted. -/
def FileAction.message : FileAction → Bytes
  | findDirectory => "getwd"
  | openFile path => "open " ++ path
  | readFile path => "read " ++ path
  | makeTemporary pattern => "createtemp " ++ pattern
  | writeFile path => "write " ++ path
  | setMode path => "chmod " ++ path
  | closeFile path => "close " ++ path
  | renameFile source target => "rename " ++ source ++ " " ++ target

/-- Why an attempt fails. -/
inductive Reason
  /-- Nothing stands at the path. -/
  | notFound
  /-- A file stands where the path needs a directory. -/
  | notDirectory
  /-- A directory stands where a file is needed. -/
  | isDirectory
  /-- Something stands where nothing may. -/
  | inUse
  /-- A name has too many bytes. -/
  | longName
  /-- The path holds a byte that no name can have. -/
  | badName
  /-- The pattern of a name holds a slash. -/
  | badPattern
  /-- Another reason of the file system. -/
  | other (text : Bytes)
deriving DecidableEq

/-- The wording of a reason. -/
def Reason.message : Reason → Bytes
  | notFound => "no such file or directory"
  | notDirectory => "not a directory"
  | isDirectory => "is a directory"
  | inUse => "file exists"
  | longName => "file name too long"
  | badName => "invalid argument"
  | badPattern => "pattern contains path separator"
  | other text => text

/-- A failed attempt. -/
structure FileError where
  /-- What was attempted. -/
  action : FileAction
  /-- Why it failed. -/
  reason : Reason
deriving DecidableEq

/-- The wording of a failed attempt. -/
def FileError.message (e : FileError) : Bytes := e.action.message ++ ": " ++ e.reason.message

end StackScript
