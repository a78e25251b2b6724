import StackScript.Compile.Generate

/-!
# Import files

A text that declares functions of the host, one a line: the last two words of a line are the name
in brackets and the fewest arguments of a call. Blank lines and lines that begin with `#` are
skipped.
-/

namespace StackScript

/-- A declaration of a function of the host. -/
structure Import where
  /-- The name of the function. -/
  name : Bytes
  /-- The fewest arguments that a call may pass. -/
  minimum : Int
deriving DecidableEq

/-- What is wrong with an import file. -/
inductive ImportError
  /-- A line has fewer than two words. -/
  | fewWords (line : Nat) (text : Bytes)
  /-- A name is not in brackets. -/
  | unbracketed (line : Nat) (word : Bytes)
  /-- A number of arguments is not one. -/
  | badMinimum (line : Nat) (word : Bytes)
  /-- A line is too long to be read. -/
  | longLine
  /-- The file cannot be read. -/
  | unreadable (reason : Bytes)
deriving DecidableEq

/-- The wording of what is wrong with an import file. -/
def ImportError.message : ImportError → Bytes
  | fewWords n s =>
    "import line " ++ decimal n ++ ": want [name] and minimum argument count, got " ++ quoted s
  | unbracketed n w =>
    "import line " ++ decimal n ++ ": function name " ++ quoted w ++ " is not bracketed"
  | badMinimum n w =>
    "import line " ++ decimal n ++ ": invalid minimum argument count " ++ quoted w
  | longLine => "reading imports: bufio.Scanner: token too long"
  | unreadable reason => "reading imports: " ++ reason

namespace Import

/-- The bytes that a line may have at most, its end included. -/
def maxLine : Nat := 65536

/-- The name in brackets, which must have a character at least. -/
def unbracket? (word : Bytes) : Option Bytes :=
  if word.head? == some 91 && word.getLast? == some 93 && 3 ≤ textLength word then
    some word.tail.dropLast
  else none

/-- The declaration on a line, if it is neither blank nor a comment. -/
def ofLine (n : Nat) (line : Bytes) : Except ImportError (Option Import) :=
  let s := trim line
  if s.isEmpty || startsWith "#" s then .ok none
  else
    match (words s).reverse with
    | least :: name :: _ =>
      match unbracket? name with
      | none => .error (.unbracketed n name)
      | some name =>
        match readInt64 least with
        | .ok minimum =>
          if minimum < 0 then .error (.badMinimum n least) else .ok (some ⟨name, minimum.toInt⟩)
        | .error _ => .error (.badMinimum n least)
    | _ => .error (.fewWords n s)

/-- A line without a carriage return at its end. -/
def dropReturn (line : Bytes) : Bytes := if line.getLast? == some 13 then line.dropLast else line

/-- The lines of a text. A newline ends a line; what follows the last one is a line only if it is
not empty. -/
def lines (s : Bytes) : List Bytes :=
  let pieces := s.splitOn 10
  if pieces.getLast? == some [] then pieces.dropLast else pieces

/-- The declarations on lines of which the first has number `n`, behind those in `acc`, which are
in reverse. -/
def ofLines (acc : List Import) (n : Nat) : List Bytes → Except ImportError (List Import)
  | [] => .ok acc.reverse
  | line :: rest =>
    if maxLine ≤ line.length then .error .longLine
    else
      match ofLine n (dropReturn line) with
      | .error e => .error e
      | .ok none => ofLines acc (n + 1) rest
      | .ok (some d) => ofLines (d :: acc) (n + 1) rest

/-- The declarations of an import file. -/
def parse (s : Bytes) : Except ImportError (List Import) := ofLines [] 1 (lines s)

end Import

/-- The compilation with functions of the host declared in order. -/
def Compilation.declareImports (c : Compilation) (imports : List Import) : Compilation :=
  { c with symbols := imports.foldl (fun s d => s.defineHost d.name d.minimum) c.symbols }

/-- Declares the functions of an import file, once all of its lines have been read. -/
def Compilation.loadImports (s : Bytes) : EStateM ImportError Compilation Unit := do
  match Import.parse s with
  | .ok imports => modify fun c => c.declareImports imports
  | .error e => throw e

end StackScript
