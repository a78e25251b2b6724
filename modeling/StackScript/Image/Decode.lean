import StackScript.Image.Encode

/-!
# Reading program files

Each reader takes the bytes that are left and gives what it read with the bytes behind it. Every
value and every instruction takes two bytes at least, so a file that is too short for the counts in
its header is refused at once.
-/

namespace StackScript

/-- Takes a number of bytes off the front. -/
def takeBytes (n : Nat) (s : Bytes) : Except ImageError (Bytes × Bytes) :=
  let front := s.take n
  if front.length < n then .error (.truncated .item) else .ok (front, s.drop n)

/-- Takes items off the front, `n` of them, behind those in `acc`, which are in reverse. -/
def takeMany (item : Bytes → Except ImageError (α × Bytes)) (acc : List α) :
    Nat → Bytes → Except ImageError (List α × Bytes)
  | 0, s => .ok (acc.reverse, s)
  | n + 1, s =>
    match item s with
    | .error e => .error e
    | .ok (a, rest) => takeMany item (a :: acc) n rest

/-- Takes items off the front as `takeMany` does, naming the item that is at fault by its index. -/
def takeItems (item : Bytes → Except ImageError (α × Bytes))
    (place : Nat → ImageError → ImageError) (acc : List α) (i : Nat) :
    Nat → Bytes → Except ImageError (List α × Bytes)
  | 0, s => .ok (acc.reverse, s)
  | n + 1, s =>
    match item s with
    | .error e => .error (place i e)
    | .ok (a, rest) => takeItems item place (a :: acc) (i + 1) n rest

/-- Takes a number of rows or columns off the front. -/
def takeCount (what : Nat → Corruption) (s : Bytes) : Except ImageError (Nat × Bytes) := do
  let (n, rest) ← Varint.decode s
  if maxCells < n.toNat then .error (.corrupt (what n.toNat)) else return (n.toNat, rest)

namespace Datum

/-- Takes the contents of a datum off the front, where `cell` takes a cell. -/
def takeContents (cell : Bytes → Except ImageError (Datum × Bytes)) (k : Kind) (s : Bytes) :
    Except ImageError (Datum × Bytes) :=
  match k with
  | .integer => do
    let (n, rest) ← Varint.decode s
    return (.integer n.toInt64, rest)
  | .real => do
    let (b, rest) ← takeBytes 8 s
    return (.real ⟨UInt64.ofNat (ofLittleEndian b)⟩, rest)
  | .string => do
    let (n, rest) ← Varint.decode s
    let (b, rest) ← takeBytes n.toNat rest
    return (.string b, rest)
  | .boolean => do
    let (b, rest) ← takeBytes 2 s
    return (.boolean (b == truthBytes true), rest)
  | .array => do
    let (rows, rest) ← takeCount .rows s
    let (cols, rest) ← takeCount .columns rest
    if maxCells < rows * cols then .error (.corrupt (.size ⟨rows, cols⟩))
    else
      let (cells, rest) ← takeMany cell [] (rows * cols) rest
      return (.array rows cols cells, rest)

/-- Takes a datum off the front whose arrays are nested less than `depth` deep. -/
def takeWithin : Nat → Bytes → Except ImageError (Datum × Bytes)
  | 0, _ => .error (.truncated .item)
  | depth + 1, s => do
    let (head, rest) ← takeBytes 2 s
    let tag := head.getD 0 0
    let reserved := head.getD 1 0
    if reserved ≠ 0 then .error (.corrupt (.reserved reserved))
    else match Kind.ofTag? tag with
      | some k => takeContents (takeWithin depth) k rest
      | none => .error (.unknownTag tag)

/-- Takes a datum off the front. Each level of nesting takes bytes of its own, so none goes deeper
than there are bytes. -/
def take (s : Bytes) : Except ImageError (Datum × Bytes) := takeWithin (s.length + 1) s

end Datum

/-- Takes an instruction off the front. -/
def Instruction.take (s : Bytes) : Except ImageError (Instruction × Bytes) := do
  let (b, rest) ← takeBytes 2 s
  let op := Opcode.ofCode (UInt16.ofNat (ofLittleEndian b))
  if !op.isValid then .error (.unknownOpcode op.code)
  else if !op.hasOperand then return ({ op }, rest)
  else
    let (n, rest) ← Varint.decode rest
    if op = .frame && maxCells < n.toNat then .error (.corrupt (.frame n.toNat))
    else return ({ op, operand := n }, rest)

/-- The header of a program file. -/
structure Header where
  /-- The number of constants. -/
  constants : Nat
  /-- The number of instructions. -/
  instructions : Nat
  /-- The length of the file. -/
  length : Nat
  /-- The time of writing. -/
  created : Instant
deriving DecidableEq

/-- The contents of a program file. -/
structure Image where
  /-- The constants. -/
  constants : List Datum
  /-- The instructions. -/
  code : List Instruction
  /-- The time of writing. -/
  created : Instant

namespace Image

/-- Reads the header of a program file. -/
def decodeHeader (s : Bytes) : Except ImageError Header :=
  let size := s.length
  let field (at_ width : Nat) : Nat := ofLittleEndian ((s.drop at_).take width)
  if size < headerSize then .error (.truncated (.header size))
  else if s.take 16 ≠ marker then .error .badMarker
  else if field 24 8 ≠ size then .error (.corrupt (.length (field 24 8) size))
  else .ok {
    constants := field 16 4
    instructions := field 20 4
    length := field 24 8
    created := Instant.decode (UInt64.ofNat (field 48 8)) }

/-- Reads a program file. -/
def decode (s : Bytes) : Except ImageError Image := do
  let h ← decodeHeader s
  let body := s.drop headerSize
  if body.length < 2 * (h.constants + h.instructions) then .error (.truncated .counts)
  else
    let (constants, rest) ← takeItems Datum.take .constant [] 0 h.constants body
    let (code, rest) ← takeItems Instruction.take .instruction [] 0 h.instructions rest
    if rest.isEmpty then return { constants, code, created := h.created }
    else .error (.corrupt (.trailing rest.length))

/-- The program of a file, and the store with the arrays among its constants. -/
def program (image : Image) (st : Store) : Program × Store :=
  let (constants, st) := Datum.storeAll #[] st image.constants
  ({ constants, code := image.code.toArray, created := image.created }, st)

end Image

end StackScript
