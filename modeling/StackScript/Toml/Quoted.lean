import StackScript.Number.Integer
import StackScript.Text.Utf8

/-!
# Strings in settings

A string stands between single or double quotes, or between three of them and may then hold
newlines. Between double quotes a backslash starts an escape; in the long form a backslash at the
end of a line takes away the blanks up to the next text.
-/

namespace StackScript.Toml

/-- Whether a byte is a blank within a line. -/
def isSpace (b : UInt8) : Bool := b = 32 || b = 9

/-- Whether a byte belongs to the end of a line. -/
def isLineEnd (b : UInt8) : Bool := b = 10 || b = 13

/-- The double quote. -/
def doubleQuote : UInt8 := 34

/-- The single quote. -/
def singleQuote : UInt8 := 39

/-- The backslash. -/
def backslash : UInt8 := 92

/-- The text up to the quote that ends it, on one line, and the rest. With escapes, the byte behind
a backslash ends nothing. -/
def splitQuoted? (quote : UInt8) (escapes : Bool) : Bytes → Option (Bytes × Bytes)
  | [] => none
  | b :: s =>
    if b = quote then some ([], s)
    else if isLineEnd b then none
    else if escapes && b = backslash then
      match s with
      | [] => none
      | c :: s =>
        if isLineEnd c then none
        else (splitQuoted? quote escapes s).map fun (text, rest) => (b :: c :: text, rest)
    else (splitQuoted? quote escapes s).map fun (text, rest) => (b :: text, rest)

/-- The text up to the three quotes that end it, and the rest; `before` is what was read, last byte
first. Of more quotes in a row the last three end the text, but six are too many, unless a
backslash stands in front of the first five. -/
def splitLong? (quote : UInt8) (escapes : Bool) (before : Bytes) : Bytes → Option (Bytes × Bytes)
  | [] => none
  | b :: s =>
    if escapes && b = backslash then
      match s with
      | [] => none
      | c :: s => splitLong? quote escapes (c :: b :: before) s
    else if b = quote && s.take 2 == [quote, quote] then
      let escaped := escapes && before[2]? == some backslash
      if s[2]? != some quote then some (before.reverse, s.drop 2)
      else if before.take 2 == [quote, quote] && !escaped then none
      else splitLong? quote escapes (b :: before) s
    else splitLong? quote escapes (b :: before) s

/-- A long text without the newline that it may begin with. -/
def dropFirstNewline : Bytes → Bytes
  | 10 :: s => s
  | 13 :: 10 :: s => s
  | s => s

/-- The bytes of the character with a code of `width` hexadecimal digits, and the rest. -/
def codeEscape? (width : Nat) (s : Bytes) : Option (Bytes × Bytes) := do
  let digits ← (s.take width).mapM hexDigit?
  if digits.length < width then none
  else
    let n := digits.foldl (fun n d => 16 * n + d) 0
    if n.isValidChar then some (String.utf8EncodeChar (Char.ofNat n), s.drop width) else none

/-- The bytes that an escape stands for, and the rest behind it; the backslash is gone. -/
def escape? : Bytes → Option (Bytes × Bytes)
  | 98 :: s => some ([8], s)
  | 116 :: s => some ([9], s)
  | 110 :: s => some ([10], s)
  | 102 :: s => some ([12], s)
  | 114 :: s => some ([13], s)
  | 101 :: s => some ([27], s)
  | 34 :: s => some ([34], s)
  | 92 :: s => some ([92], s)
  | 120 :: s => codeEscape? 2 s
  | 117 :: s => codeEscape? 4 s
  | 85 :: s => codeEscape? 8 s
  | s =>
    let behind := s.dropWhile fun b => isSpace b || isLineEnd b
    if (s.take (s.length - behind.length)).contains 10 then some ([], behind) else none

/-- The text that a text of at most `fuel` bytes with escapes stands for. -/
def unescapeWithin? : Nat → Bytes → Option Bytes
  | _, [] => some []
  | 0, _ => none
  | fuel + 1, b :: s =>
    if b = backslash then do
      let (text, rest) ← escape? s
      return text ++ (← unescapeWithin? fuel rest)
    else (unescapeWithin? fuel s).map (b :: ·)

/-- The text that a text with escapes stands for. -/
def unescape? (s : Bytes) : Option Bytes := unescapeWithin? s.length s

/-- Reads a string on one line from behind its first quote. -/
def readShort? (quote : UInt8) (s : Bytes) : Option (Bytes × Bytes) :=
  if quote = doubleQuote then do
    let (text, rest) ← splitQuoted? quote true s
    return (← unescape? text, rest)
  else splitQuoted? quote false s

/-- Reads a long string from behind its first quotes. -/
def readLong? (quote : UInt8) (s : Bytes) : Option (Bytes × Bytes) :=
  if quote = doubleQuote then do
    let (text, rest) ← splitLong? quote true [] s
    return (← unescape? (dropFirstNewline text), rest)
  else do
    let (text, rest) ← splitLong? quote false [] s
    return (dropFirstNewline text, rest)

/-- Reads a string of either length from behind its first quote. -/
def readString? (quote : UInt8) (s : Bytes) : Option (Bytes × Bytes) :=
  if s.take 2 == [quote, quote] then readLong? quote (s.drop 2) else readShort? quote s

end StackScript.Toml
