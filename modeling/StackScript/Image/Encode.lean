import StackScript.Image.Varint
import StackScript.Image.Words
import StackScript.Code.Program

/-!
# Writing program files

A program file is a header of 56 bytes, the constants and the instructions. The header holds a
marker, both counts, the length of the file, sixteen reserved bytes and the time of writing.
-/

namespace StackScript

/-- The bytes of a truth value. -/
def truthBytes (b : Bool) : Bytes := if b then [0x00, 0xFF] else [0xFF, 0x00]

mutual

/-- The bytes of a datum: its tag, a zero and its contents. -/
def Datum.encode : Datum → Bytes
  | .integer n => Kind.integer.tag :: 0 :: Varint.encode n.toUInt64
  | .real x => Kind.real.tag :: 0 :: littleEndian 8 x.bits.toNat
  | .string s => Kind.string.tag :: 0 :: (Varint.encodeNat s.length ++ s)
  | .boolean b => Kind.boolean.tag :: 0 :: truthBytes b
  | .array rows cols cells =>
    Kind.array.tag :: 0 :: (Varint.encodeNat rows ++ Varint.encodeNat cols ++ Datum.encodeAll cells)

/-- The bytes of data one after the other. -/
def Datum.encodeAll : List Datum → Bytes
  | [] => []
  | d :: ds => d.encode ++ Datum.encodeAll ds

end

/-- The bytes of a cell, which must have a datum. -/
def Cell.encode (st : Store) (c : Cell) : Except ImageError Bytes :=
  match c.snapshot st with
  | .ok d => .ok d.encode
  | .error e => .error e.imageError

/-- The bytes of an instruction: its number and, if it carries one, its operand. -/
def Instruction.encode (i : Instruction) : Bytes :=
  littleEndian 2 i.op.code.toNat ++ (if i.op.hasOperand then Varint.encode i.operand else [])

/-- The bytes of an instruction of a file, whose operation must be defined. -/
def Instruction.encodeValid (i : Instruction) : Except ImageError Bytes :=
  if i.op.isValid then .ok i.encode else .error (.unknownOpcode i.op.code)

/-- The results for all items, unless one fails: then the first failure, with the item's index. -/
def encodeItems (item : α → Except ImageError Bytes) (place : Nat → ImageError → ImageError) :
    Nat → List α → Except ImageError (List Bytes)
  | _, [] => .ok []
  | i, a :: as =>
    match item a with
    | .error e => .error (place i e)
    | .ok s =>
      match encodeItems item place (i + 1) as with
      | .error e => .error e
      | .ok rest => .ok (s :: rest)

namespace Image

/-- The bytes that every program file begins with. -/
def marker : Bytes :=
  [0xDA, 0xE6, 0x9F, 0xF3, 0xF6, 0x98, 0x54, 0x48, 0xB0, 0xCB, 0x65, 0x9E, 0xF6, 0xB8, 0x38, 0xCE]

/-- The header of a program file whose constants and instructions take `size` bytes. -/
def header (constants instructions size : Nat) (now : Instant) : Bytes :=
  marker ++ littleEndian 4 constants ++ littleEndian 4 instructions ++
    littleEndian 8 (headerSize + size) ++ List.replicate 16 0 ++ littleEndian 8 now.encode.toNat

end Image

/-- The program file of a program, stamped with a time. -/
def Program.encode (st : Store) (p : Program) (now : Instant) : Except ImageError Bytes := do
  let constants ← encodeItems (Cell.encode st) .constant 0 p.constants.toList
  let code ← encodeItems Instruction.encodeValid .instruction 0 p.code.toList
  let body := constants.flatten ++ code.flatten
  return Image.header p.constants.size p.code.size body.length now ++ body

end StackScript
