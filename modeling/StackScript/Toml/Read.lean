import StackScript.Toml.Item
import StackScript.Toml.Moment
import StackScript.Toml.Number
import StackScript.Toml.Quoted

/-!
# Reading settings

The statements of a settings file. Each reader takes a piece from the front of the text and gives
it with the rest, or nothing if the text does not begin with such a piece.
-/

namespace StackScript.Toml

/-- Whether a byte is a control character that no settings file has. -/
def isControl (b : UInt8) : Bool := (b < 32 && !isSpace b && !isLineEnd b) || b = 127

/-- Whether every carriage return of a text has a newline behind it. -/
def returnsPaired : Bytes → Bool
  | [] => true
  | b :: s => (b != 13 || s.head? == some 10) && returnsPaired s

/-- Whether all of a text may stand in a settings file. -/
def isPlain (s : Bytes) : Bool := isUtf8 s && !s.any isControl && returnsPaired s

/-- A file without the mark that some programs put in front of a text. -/
def dropMark : Bytes → Bytes
  | 0xFF :: 0xFE :: s => s
  | 0xFE :: 0xFF :: s => s
  | 0xEF :: 0xBB :: 0xBF :: s => s
  | s => s

/-- What follows blanks on a line. -/
def skipSpaces (s : Bytes) : Bytes := s.dropWhile isSpace

/-- What follows blanks, ends of lines and comments; the flag says that a comment is under way. -/
def skipFrom (comment : Bool) : Bytes → Bytes
  | [] => []
  | b :: s =>
    if isLineEnd b then skipFrom false s
    else if comment || isSpace b then skipFrom comment s
    else if b = 35 then skipFrom true s
    else b :: s

/-- What follows blanks, ends of lines and comments. -/
def skip (s : Bytes) : Bytes := skipFrom false s

/-- What follows a statement, if nothing else stands on its line. -/
def endStatement? (s : Bytes) : Option Bytes :=
  match skipSpaces s with
  | [] => some []
  | b :: s => if isLineEnd b || b = 35 then some (skip (b :: s)) else none

/-- Whether a byte may stand in a name without quotes. -/
def isNameByte (b : UInt8) : Bool :=
  (65 ≤ b && b ≤ 90) || (97 ≤ b && b ≤ 122) || (48 ≤ b && b ≤ 57) || b = 95 || b = 45

/-- Reads a name, with or without quotes. -/
def readName? (s : Bytes) : Option (Bytes × Bytes) :=
  match s with
  | 34 :: s => readShort? doubleQuote s
  | 39 :: s => readShort? singleQuote s
  | s =>
    let (name, rest) := s.span isNameByte
    if name.isEmpty then none else some (name, rest)

/-- Reads a key of at most `fuel` names, and the blanks behind it; `above` are the names in front,
last first. -/
def readKeyWithin? : Nat → Route → Bytes → Option (Key × Bytes)
  | 0, _, _ => none
  | fuel + 1, above, s => do
    let (name, s) ← readName? (skipSpaces s)
    match skipSpaces s with
    | 46 :: s => readKeyWithin? fuel (name :: above) s
    | s => return (⟨above.reverse, name⟩, s)

/-- Reads a key and the blanks behind it. -/
def readKey? (s : Bytes) : Option (Key × Bytes) := readKeyWithin? s.length [] s

/-- Whether a byte ends a number or a word. -/
def isDelimiter (b : UInt8) : Bool :=
  isSpace b || isLineEnd b || b = 35 || b = 44 || b = 93 || b = 125

/-- Whether a byte may stand in a moment. -/
def isMomentByte (b : UInt8) : Bool :=
  (decimalDigit? b).isSome || [45, 58, 84, 116, 32, 46, 90, 122, 43].contains b

/-- Whether a word begins as a moment does: with digits, at least two, and a dash or a colon. -/
def beginsMoment (word : Bytes) : Bool :=
  let (digits, rest) := word.span fun b => (decimalDigit? b).isSome
  2 ≤ digits.length && (rest.head? == some 45 || rest.head? == some 58)

/-- Reads a moment; blanks at its end do not belong to it. -/
def readMoment? (s : Bytes) : Option (Item × Bytes) :=
  let (text, rest) := s.span isMomentByte
  let text := (text.reverse.dropWhile (· == 32)).reverse
  if isMoment text then some (.moment text, rest) else none

/-- Reads a number, a word or a moment. -/
def readScalar? (s : Bytes) : Option (Item × Bytes) :=
  let (word, rest) := s.span fun b => !isDelimiter b
  if beginsMoment word then readMoment? s
  else if word == "true" then some (.boolean true, rest)
  else if word == "false" then some (.boolean false, rest)
  else
    match integer? word with
    | some n => some (.integer n, rest)
    | none => (real? word).map fun x => (.real x, rest)

mutual

/-- Reads a value of at most `fuel` bytes. -/
def readValueWithin? : Nat → Bytes → Option (Item × Bytes)
  | 0, _ => none
  | fuel + 1, s =>
    match s with
    | 91 :: s => (readItemsWithin? fuel [] (skip s)).map fun (items, rest) => (.array items, rest)
    | 123 :: s => (readPairsWithin? fuel [] (skip s)).map fun (pairs, rest) => (.inline pairs, rest)
    | 34 :: s => (readString? doubleQuote s).map fun (text, rest) => (.string text, rest)
    | 39 :: s => (readString? singleQuote s).map fun (text, rest) => (.string text, rest)
    | s => readScalar? s

/-- Reads the values of an array, behind those in `items`, which are in reverse. -/
def readItemsWithin? : Nat → List Item → Bytes → Option (List Item × Bytes)
  | 0, _, _ => none
  | fuel + 1, items, s =>
    match s with
    | 93 :: s => some (items.reverse, s)
    | s => do
      let (item, s) ← readValueWithin? fuel s
      match skip s with
      | 44 :: s => readItemsWithin? fuel (item :: items) (skip s)
      | 93 :: s => return ((item :: items).reverse, s)
      | _ => none

/-- Reads the pairs of a table between braces, behind those in `pairs`, which are in reverse. -/
def readPairsWithin? : Nat → List (Key × Item) → Bytes → Option (List (Key × Item) × Bytes)
  | 0, _, _ => none
  | fuel + 1, pairs, s =>
    match s with
    | 125 :: s => some (pairs.reverse, s)
    | s => do
      let (key, s) ← readKey? s
      let s ← takeByte? 61 s
      let (item, s) ← readValueWithin? fuel (skipSpaces s)
      match skip s with
      | 44 :: s => readPairsWithin? fuel ((key, item) :: pairs) (skip s)
      | 125 :: s => return (((key, item) :: pairs).reverse, s)
      | _ => none

end

/-- Reads a value. -/
def readValue? (s : Bytes) : Option (Item × Bytes) := readValueWithin? (s.length + 1) s

/-- Reads a statement. -/
def readStatement? : Bytes → Option (Statement × Bytes)
  | 91 :: 91 :: s => do
    let (key, s) ← readKey? s
    let s ← takeByte? 93 s
    let s ← takeByte? 93 s
    return (.element key, s)
  | 91 :: s => do
    let (key, s) ← readKey? s
    let s ← takeByte? 93 s
    return (.table key, s)
  | s => do
    let (key, s) ← readKey? s
    let s ← takeByte? 61 s
    let (item, s) ← readValue? (skipSpaces s)
    return (.pair key item, s)

/-- Reads at most `fuel` statements up to the end of a text. -/
def readStatementsWithin? : Nat → Bytes → Option (List Statement)
  | _, [] => some []
  | 0, _ => none
  | fuel + 1, s => do
    let (statement, s) ← readStatement? s
    let s ← endStatement? s
    return statement :: (← readStatementsWithin? fuel s)

/-- The statements of a settings file. -/
def readStatements? (file : Bytes) : Option (List Statement) :=
  let s := dropMark file
  if isPlain s then readStatementsWithin? s.length (skip s) else none

end StackScript.Toml
