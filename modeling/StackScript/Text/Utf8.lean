import StackScript.Text.Bytes

/-!
# Reading UTF-8

A byte string is read as a sequence of pieces: characters, and stray bytes that begin none. A
character is taken only in its shortest form and never as a surrogate, so every byte string has
one sequence of pieces and writing the pieces gives it back.
-/

namespace StackScript

/-- A character of a text, or a byte that begins none. -/
inductive Piece
  /-- A character in UTF-8. -/
  | char (c : Char)
  /-- A byte that begins no character. -/
  | stray (b : UInt8)
deriving DecidableEq

namespace Piece

/-- The bytes that a piece was read from. -/
def bytes : Piece → Bytes
  | char c => String.utf8EncodeChar c
  | stray b => [b]

/-- Whether `b` lies between `lo` and `hi`. -/
def within (lo hi b : UInt8) : Bool := lo ≤ b && b ≤ hi

/-- Whether `b` continues a character. -/
def continues (b : UInt8) : Bool := within 0x80 0xBF b

/-- The low six bits of a byte that continues a character. -/
def payload (b : UInt8) : Nat := b.toNat % 64

/-- The range of the second byte of a three-byte character that begins with `b`: it excludes
over-long forms and surrogates. -/
def second3 (b : UInt8) : UInt8 → Bool :=
  if b = 0xE0 then within 0xA0 0xBF else if b = 0xED then within 0x80 0x9F else continues

/-- The range of the second byte of a four-byte character that begins with `b`: it excludes
over-long forms and numbers past the last character. -/
def second4 (b : UInt8) : UInt8 → Bool :=
  if b = 0xF0 then within 0x90 0xBF else if b = 0xF4 then within 0x80 0x8F else continues

/-- The character that `b` and the bytes `bs` after it begin with, and how many bytes of `bs` it
takes. -/
def first? (b : UInt8) (bs : Bytes) : Option (Char × Nat) :=
  if b < 0x80 then some (Char.ofNat b.toNat, 0)
  else if within 0xC2 0xDF b then
    match bs with
    | c :: _ =>
      if continues c then some (Char.ofNat (b.toNat % 32 * 64 + payload c), 1) else none
    | [] => none
  else if within 0xE0 0xEF b then
    match bs with
    | c :: d :: _ =>
      if second3 b c && continues d then
        some (Char.ofNat (b.toNat % 16 * 4096 + payload c * 64 + payload d), 2)
      else none
    | _ => none
  else if within 0xF0 0xF4 b then
    match bs with
    | c :: d :: e :: _ =>
      if second4 b c && continues d && continues e then
        some (Char.ofNat (b.toNat % 8 * 262144 + payload c * 4096 + payload d * 64 + payload e), 3)
      else none
    | _ => none
  else none

/-- The pieces of a byte string after `skip` bytes of it, behind the pieces in `acc`, which are
in reverse. -/
def readOnto (acc : List Piece) : Nat → Bytes → List Piece
  | _, [] => acc.reverse
  | skip + 1, _ :: bs => readOnto acc skip bs
  | 0, b :: bs =>
    match first? b bs with
    | some (c, more) => readOnto (char c :: acc) more bs
    | none => readOnto (stray b :: acc) 0 bs

/-- The pieces of a byte string. -/
def read (s : Bytes) : List Piece := readOnto [] 0 s

/-- The bytes of a sequence of pieces. -/
def write (ps : List Piece) : Bytes := ps.flatMap bytes

/-- Whether a piece is a character. -/
def isChar : Piece → Bool
  | char _ => true
  | stray _ => false

end Piece

/-- The number of characters of a text, each stray byte counted as one. -/
def textLength (s : Bytes) : Nat := (Piece.read s).length

/-- Whether a byte string is UTF-8 throughout. -/
def isUtf8 (s : Bytes) : Bool := (Piece.read s).all Piece.isChar

end StackScript
