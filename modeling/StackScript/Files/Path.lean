import StackScript.Text.Bytes

/-!
# Paths

A path is a text whose names are divided by slashes. The operations here only look at the text;
what stands at a path is a matter of the file system.
-/

namespace StackScript

namespace Path

/-- The byte that divides names. -/
def slash : UInt8 := 47

/-- Whether a path starts at the root. -/
def isAbsolute (path : Bytes) : Bool := path.head? == some slash

/-- Whether a name stands for the directory it is in. -/
def isHere (name : Bytes) : Bool := name.isEmpty || name == "."

/-- Whether a name stands for the directory above. -/
def isUp (name : Bytes) : Bool := name == ".."

/-- The names that are left, last first, when `name` is followed from `names`. A step up takes back
the name before it; above the root there is nothing, and a relative path keeps its leading steps
up. -/
def follow (absolute : Bool) (names : List Bytes) (name : Bytes) : List Bytes :=
  if isHere name then names
  else if isUp name then
    match names with
    | [] => if absolute then [] else [name]
    | last :: rest => if isUp last then name :: names else rest
  else name :: names

/-- The path with the given names. -/
def ofNames (absolute : Bool) (names : List Bytes) : Bytes :=
  let text := joinWith "/" names
  if absolute then slash :: text else if text.isEmpty then "." else text

/-- The shortest path that says the same: without empty names, and without `.` and `..` where they
can be worked out. -/
def clean (path : Bytes) : Bytes :=
  let absolute := isAbsolute path
  ofNames absolute ((path.splitOn slash).foldl (follow absolute) []).reverse

/-- A path followed from a directory, both as texts. -/
def join (directory path : Bytes) : Bytes :=
  if directory.isEmpty && path.isEmpty then []
  else if directory.isEmpty then clean path
  else clean (directory ++ slash :: path)

/-- The part of a path behind its last slash. -/
def lastName (path : Bytes) : Bytes := (path.reverse.takeWhile (· != slash)).reverse

/-- The directory part of a path. -/
def parent (path : Bytes) : Bytes := clean (path.take (path.length - (lastName path).length))

/-- The last name of a path, slashes at its end aside. -/
def base (path : Bytes) : Bytes :=
  if path.isEmpty then "."
  else
    let name := lastName (path.reverse.dropWhile (· == slash)).reverse
    if name.isEmpty then "/" else name

/-- The ending of the last name, from its last dot on. -/
def extension (path : Bytes) : Bytes :=
  let name := (lastName path).reverse
  if name.contains 46 then 46 :: (name.takeWhile (· != 46)).reverse else []

/-- A path with its ending replaced. -/
def withExtension (path ending : Bytes) : Bytes :=
  path.take (path.length - (extension path).length) ++ ending

/-- At most `fuel` directories: the given one and those above it. -/
def ancestorsWithin : Nat → Bytes → List Bytes
  | 0, _ => []
  | fuel + 1, path =>
    let up := parent path
    path :: if up = path then [] else ancestorsWithin fuel up

/-- A directory and all those above it, up to the root. -/
def ancestors (path : Bytes) : List Bytes := ancestorsWithin (path.length + 1) path

end Path

end StackScript
