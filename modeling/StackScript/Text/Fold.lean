import StackScript.Text.Utf8

/-!
# Case folding

Two texts are equal up to case when their characters are pairwise equal after simple folding.
The texts that this library looks for are ASCII, so folding need only know the characters that
fold to an ASCII letter: the capitals, the long s and the Kelvin sign. Every other character
stands for itself.
-/

namespace StackScript

/-- The character that stands for all characters that differ from an ASCII letter only in case. -/
def foldChar (c : Char) : Char :=
  if 'A' ≤ c && c ≤ 'Z' then Char.ofNat (c.toNat + 32)
  else if c.toNat = 0x17F then 's'
  else if c.toNat = 0x212A then 'k'
  else c

/-- A piece up to case; a stray byte counts as the replacement character. -/
def foldPiece : Piece → Char
  | .char c => foldChar c
  | .stray _ => Char.ofNat 0xFFFD

/-- Whether `s` is the ASCII text `name` up to case. -/
def equalFold (s name : Bytes) : Bool :=
  (Piece.read s).map foldPiece == (Piece.read name).map foldPiece

end StackScript
