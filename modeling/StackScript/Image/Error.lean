import StackScript.Value.Datum
import StackScript.Code.Opcode

/-!
# Faults of program files

Why bytes are not a program file, or a program cannot be written to one.
-/

namespace StackScript

/-- What is missing at the end of the data. -/
inductive Shortage
  /-- A value or an instruction is cut off. -/
  | item
  /-- There is no whole header. -/
  | header (size : Nat)
  /-- There are fewer bytes than the counts in the header need. -/
  | counts
  /-- There is no room for a program behind a loader. -/
  | executable (size : Nat)
deriving DecidableEq

/-- What contradicts the format. -/
inductive Corruption
  /-- A number takes more than 64 bits. -/
  | varint
  /-- There is no value to write. -/
  | missing
  /-- The byte after a value's tag is not zero. -/
  | reserved (b : UInt8)
  /-- An array has too many rows. -/
  | rows (n : Nat)
  /-- An array has too many columns. -/
  | columns (n : Nat)
  /-- An array has too many cells. -/
  | size (e : SizeError)
  /-- A data frame has too many slots. -/
  | frame (n : Nat)
  /-- There are bytes behind the last instruction. -/
  | trailing (n : Nat)
  /-- The header gives another length than the data has. -/
  | length (header data : Nat)
  /-- The program behind a loader cannot have this size. -/
  | embedded (n : Nat)
deriving DecidableEq

/-- Why a program file cannot be read or written. -/
inductive ImageError
  | truncated (what : Shortage)
  | badMarker
  | corrupt (what : Corruption)
  | unknownTag (tag : UInt8)
  | unknownOpcode (code : UInt16)
  /-- An array to write contains itself. -/
  | endless
  /-- The constant at an index is at fault. -/
  | constant (index : Nat) (e : ImageError)
  /-- The instruction at an index is at fault. -/
  | instruction (index : Nat) (e : ImageError)
  /-- The data could not be read to its end. -/
  | unreadable
deriving DecidableEq

/-- The size of the header of a program file. -/
def headerSize : Nat := 56

/-- The wording of a shortage, behind a colon where it says more than that data is missing. -/
def Shortage.message : Shortage → Bytes
  | item => ""
  | header n => ": header needs " ++ decimal headerSize ++ " bytes, have " ++ decimal n
  | counts => ": counts exceed data size"
  | executable n => ": executable of " ++ decimal n ++ " bytes has no embedded program"

/-- The wording of a contradiction. -/
def Corruption.message : Corruption → Bytes
  | varint => "varint overflows 64 bits"
  | missing => "nil value"
  | reserved b => "reserved byte is 0x" ++ hexDigits 2 b.toNat
  | rows n => "array rows " ++ decimal n ++ " too large"
  | columns n => "array columns " ++ decimal n ++ " too large"
  | size e => e.message
  | frame n => "frame of " ++ decimal n ++ " slots"
  | trailing n => decimal n ++ " trailing bytes"
  | length h d => "header length " ++ decimal h ++ ", data length " ++ decimal d
  | embedded n => "invalid embedded program size " ++ decimal n

/-- The wording of an operation that is not defined. -/
def unknownOpcodeMessage (code : UInt16) : Bytes := "unknown opcode: " ++ decimal code.toNat

namespace ImageError

/-- The wording of a fault. -/
def message : ImageError → Bytes
  | truncated s => "unexpected end of bytecode data" ++ s.message
  | badMarker => "not a bytecode file: format marker mismatch"
  | corrupt c => "corrupt bytecode data: " ++ c.message
  | unknownTag t => "unknown value tag: " ++ decimal t.toNat
  | unknownOpcode c => unknownOpcodeMessage c
  | endless => "array contains itself"
  | constant i e => "constant " ++ decimal i ++ ": " ++ e.message
  | instruction i e => "instruction " ++ decimal i ++ ": " ++ e.message
  | unreadable => "failed to read bytecode: broken reader"

/-- The fault itself, without the place where it was found. -/
def cause : ImageError → ImageError
  | constant _ e => e.cause
  | instruction _ e => e.cause
  | e => e

end ImageError

/-- The fault of writing a value that has no datum. -/
def Gap.imageError : Gap → ImageError
  | missing => .corrupt .missing
  | endless => .endless

end StackScript
