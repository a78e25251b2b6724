import StackScript.Text.Printable
import StackScript.Text.Utf8

/-!
# Quoted text

How messages quote a text that the user wrote: between double quotes, with a backslash before
quotes and backslashes, letters for the common controls, and numbers for whatever is not
printable.
-/

namespace StackScript

/-- The letter that stands for a control character after a backslash. -/
def controlLetter? (n : Nat) : Option Char :=
  match n with
  | 7 => some 'a'
  | 8 => some 'b'
  | 9 => some 't'
  | 10 => some 'n'
  | 11 => some 'v'
  | 12 => some 'f'
  | 13 => some 'r'
  | _ => none

/-- A character as it stands between quotes. -/
def quotedChar (c : Char) : Bytes :=
  let n := c.toNat
  if c = '"' || c = '\\' then [92, c.toUInt8]
  else if isPrintable c then String.utf8EncodeChar c
  else match controlLetter? n with
    | some l => [92, l.toUInt8]
    | none =>
      if n < 0x20 || n = 0x7F then "\\x" ++ hexDigits 2 n
      else if n < 0x10000 then "\\u" ++ hexDigits 4 n
      else "\\U" ++ hexDigits 8 n

/-- A piece as it stands between quotes; a stray byte is written by its number. -/
def quotedPiece : Piece → Bytes
  | .char c => quotedChar c
  | .stray b => "\\x" ++ hexDigits 2 b.toNat

/-- A text between double quotes. -/
def quoted (s : Bytes) : Bytes := "\"" ++ (Piece.read s).flatMap quotedPiece ++ "\""

end StackScript
