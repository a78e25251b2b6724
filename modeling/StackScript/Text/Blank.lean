import StackScript.Text.Utf8

/-!
# White space

The characters with Unicode's white space property, and the operations that cut a text at them.
A stray byte is never blank.
-/

namespace StackScript

/-- Whether a character has the white space property. -/
def isBlankChar (c : Char) : Bool :=
  let n := c.toNat
  (0x09 ≤ n && n ≤ 0x0D) || n == 0x20 || n == 0x85 || n == 0xA0 || n == 0x1680 ||
    (0x2000 ≤ n && n ≤ 0x200A) || n == 0x2028 || n == 0x2029 || n == 0x202F || n == 0x205F ||
    n == 0x3000

namespace Piece

/-- Whether a piece is white space. -/
def isBlank : Piece → Bool
  | char c => isBlankChar c
  | stray _ => false

/-- Without the blanks at the end. -/
def dropBlankEnd (ps : List Piece) : List Piece := (ps.reverse.dropWhile isBlank).reverse

end Piece

/-- A text without white space at its start. -/
def trimStart (s : Bytes) : Bytes := Piece.write ((Piece.read s).dropWhile Piece.isBlank)

/-- A text without white space at its end. -/
def trimEnd (s : Bytes) : Bytes := Piece.write (Piece.dropBlankEnd (Piece.read s))

/-- A text without white space at either end. -/
def trim (s : Bytes) : Bytes :=
  Piece.write (Piece.dropBlankEnd ((Piece.read s).dropWhile Piece.isBlank))

/-- The words of a text: its longest runs without white space. -/
def words (s : Bytes) : List Bytes :=
  (((Piece.read s).splitOnP Piece.isBlank).filter fun w => !w.isEmpty).map Piece.write

end StackScript
