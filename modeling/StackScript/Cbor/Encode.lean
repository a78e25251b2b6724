import StackScript.Cbor.Float

/-!
# Writing canonical CBOR

The heads and scalars of canonical CBOR: every length and integer in the fewest bytes, every float
in the shortest format that keeps its value, and one form for NaN. A map is written with its keys in
order of length, then of bytes, which is up to the caller.
-/

namespace StackScript.Cbor

/-- The lowest `width` bytes of a number, the most significant first. -/
def bigEndianBytes (width n : Nat) : Bytes :=
  (List.range width).map fun i => UInt8.ofNat (n / Nat.pow 256 (width - 1 - i) % 256)

/-- The head of an item of a major type with an argument. -/
def head (major arg : Nat) : Bytes :=
  let first (info : Nat) : UInt8 := UInt8.ofNat (major * 32 + info)
  if arg < 24 then [first arg]
  else if arg < 256 then first 24 :: bigEndianBytes 1 arg
  else if arg < 0x10000 then first 25 :: bigEndianBytes 2 arg
  else if arg < 0x100000000 then first 26 :: bigEndianBytes 4 arg
  else first 27 :: bigEndianBytes 8 arg

/-- An integer. -/
def integer (z : Int) : Bytes :=
  if 0 ≤ z then head 0 z.toNat else head 1 (-1 - z).toNat

/-- A text. -/
def text (s : Bytes) : Bytes := head 3 s.length ++ s

/-- An array whose elements are already written. -/
def array (items : List Bytes) : Bytes := head 4 items.length ++ items.flatten

/-- A truth value. -/
def bool (b : Bool) : Bytes := [if b then 0xF5 else 0xF4]

/-- The null item. -/
def null : Bytes := [0xF6]

/-- A float. -/
def float (x : Binary64) : Bytes :=
  if x.isNaN then [0xF9, 0x7E, 0x00]
  else
    match FloatFormat.binary16.narrow? x with
    | some bits => 0xF9 :: bigEndianBytes 2 bits
    | none =>
      match FloatFormat.binary32.narrow? x with
      | some bits => 0xFA :: bigEndianBytes 4 bits
      | none => 0xFB :: bigEndianBytes 8 x.bits.toNat

/-- A map of written values by text keys; an entry without a value is left out. -/
def map (entries : List (Bytes × Option Bytes)) : Bytes :=
  let present := entries.filterMap fun (k, v) => v.map fun v => text k ++ v
  head 5 present.length ++ present.flatten

end StackScript.Cbor
