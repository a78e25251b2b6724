import StackScript.Text.Bytes

/-!
# Consoles

Where host functions read and write text. Input is what is still to be read; it may fail at its
end in place of just ending. Output is what was written so far; it may be limited.
-/

namespace StackScript

/-- Input and output of a running program. -/
structure Console where
  /-- What is still to be read. -/
  input : Bytes := []
  /-- Whether reading fails where the input ends. -/
  inputFails : Bool := false
  /-- What was written. -/
  output : Array UInt8 := #[]
  /-- The most bytes that can be written. -/
  limit : Option Nat := none

namespace Console

/-- Whether a text can be written within the limit. -/
def hasRoom (c : Console) (s : Bytes) : Bool :=
  match c.limit with
  | some n => c.output.size + s.length ≤ n
  | none => true

/-- The console after a text is written. -/
def write (c : Console) (s : Bytes) : Console := { c with output := c.output ++ s }

/-- Whether a byte ends a line. -/
def isNewline (b : UInt8) : Bool := b = 10

/-- The line that the input begins with, its end included, and the input behind it. -/
def splitLine (input : Bytes) : Bytes × Bytes :=
  let (line, rest) := input.span fun b => !isNewline b
  (line ++ rest.take 1, rest.drop 1)

/-- A line without the carriage returns and newlines at its end. -/
def chomp (line : Bytes) : Bytes :=
  (line.reverse.dropWhile fun b => b = 10 || b = 13).reverse

/-- The next line and the console after it is read, unless the input fails before a single byte. At
the end of the input the line is empty. -/
def readLine? (c : Console) : Option (Bytes × Console) :=
  if c.input.isEmpty && c.inputFails then none
  else
    let (line, rest) := splitLine c.input
    some (chomp line, { c with input := rest })

end Console

end StackScript
