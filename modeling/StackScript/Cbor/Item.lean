import StackScript.Cbor.Float

/-!
# CBOR data items

Well-formed CBOR read into items. Reading fails for whatever is not well formed: data that ends
early, reserved heads, misplaced breaks, chunks of another kind, and nesting or counts past the
limits.
-/

namespace StackScript.Cbor

/-- A data item. -/
inductive Item
  | unsigned (n : Nat)
  /-- The integer `-1 - n`. -/
  | negative (n : Nat)
  | bytes (s : Bytes)
  /-- A text in chunks, one unless the length is indefinite. -/
  | text (chunks : List Bytes)
  | array (items : List Item)
  /-- A map as its keys and values in turn. -/
  | map (entries : List Item)
  | tag (number : Nat) (content : Item)
  | simple (n : Nat)
  | bool (b : Bool)
  | null
  | undefined
  | float (x : Binary64)

/-- The most levels of arrays, maps and tags behind tags inside each other. -/
def maxNesting : Nat := 65535

/-- The most elements of an array, and the most entries of a map. -/
def maxElements : Nat := 0x1000000

/-- The number that bytes stand for, the most significant first. -/
def bigEndian (s : Bytes) : Nat := s.foldl (fun n b => n * 256 + b.toNat) 0

/-- The first `n` bytes and the bytes behind them, if there are so many. -/
def split? (n : Nat) (s : Bytes) : Option (Bytes × Bytes) :=
  let front := s.take n
  if front.length < n then none else some (front, s.drop n)

/-- The head of an item. -/
structure Head where
  /-- The major type. -/
  major : Nat
  /-- The additional information. -/
  info : Nat
  /-- The argument. -/
  arg : Nat

/-- The number of bytes of the argument that additional information announces. -/
def argumentSize (info : Nat) : Nat :=
  if info < 24 then 0 else Nat.pow 2 (info - 24)

/-- Takes a head off the front. Indefinite lengths are for strings, arrays and maps only. -/
def Head.take : Bytes → Option (Head × Bytes)
  | [] => none
  | b :: s =>
    let major := b.toNat / 32
    let info := b.toNat % 32
    if info < 24 then some (⟨major, info, info⟩, s)
    else if info < 28 then do
      let (a, rest) ← split? (argumentSize info) s
      let arg := bigEndian a
      if major = 7 && info = 24 && arg < 32 then none else some (⟨major, info, arg⟩, rest)
    else if info = 31 && 2 ≤ major && major ≤ 5 then some (⟨major, info, info⟩, s)
    else none

/-- The item of a head of the last major type. -/
def primitive (h : Head) : Item :=
  if h.info = 25 then .float (FloatFormat.binary16.widen h.arg)
  else if h.info = 26 then .float (FloatFormat.binary32.widen h.arg)
  else if h.info = 27 then .float ⟨UInt64.ofNat h.arg⟩
  else if h.info = 24 then .simple h.arg
  else if h.arg = 20 then .bool false
  else if h.arg = 21 then .bool true
  else if h.arg = 22 then .null
  else if h.arg = 23 then .undefined
  else .simple h.arg

/-- Takes `n` items off the front, behind those in `acc`, which are in reverse. -/
def takeCount (item : Bytes → Option (Item × Bytes)) (acc : List Item) :
    Nat → Bytes → Option (List Item × Bytes)
  | 0, s => some (acc.reverse, s)
  | n + 1, s =>
    match item s with
    | some (a, rest) => takeCount item (a :: acc) n rest
    | none => none

/-- Takes items up to a break off the front, at most `fuel` of them, behind those in `acc`, which
are in reverse. -/
def takeUntilBreak (item : Bytes → Option (Item × Bytes)) (acc : List Item) :
    Nat → Bytes → Option (List Item × Bytes)
  | _, [] => none
  | fuel, b :: s =>
    if b = 0xFF then some (acc.reverse, s)
    else
      match fuel with
      | 0 => none
      | fuel + 1 =>
        match item (b :: s) with
        | some (a, rest) => takeUntilBreak item (a :: acc) fuel rest
        | none => none

/-- Takes chunks of a string of the given major type up to a break off the front, at most `fuel`
of them, behind those in `acc`, which are in reverse. -/
def takeChunks (major : Nat) (acc : List Bytes) : Nat → Bytes → Option (List Bytes × Bytes)
  | 0, _ => none
  | _, [] => none
  | fuel + 1, b :: s =>
    if b = 0xFF then some (acc.reverse, s)
    else
      match Head.take (b :: s) with
      | some (h, rest) =>
        if h.major ≠ major || h.info = 31 then none
        else
          match split? h.arg rest with
          | some (chunk, rest) => takeChunks major (chunk :: acc) fuel rest
          | none => none
      | none => none

/-- Takes the elements of an array, or the keys and values of a map, off the front. -/
def takeElements (item : Bytes → Option (Item × Bytes)) (h : Head) (s : Bytes) :
    Option (List Item × Bytes) :=
  let each := if h.major = 5 then 2 else 1
  if h.info = 31 then
    match takeUntilBreak item [] s.length s with
    | some (items, rest) =>
      if items.length % each = 0 && items.length ≤ each * maxElements then some (items, rest)
      else none
    | none => none
  else if maxElements < h.arg then none
  else takeCount item [] (each * h.arg) s

/-- Whether bytes begin with a tag. -/
def beginsTag (s : Bytes) : Bool := s.head?.any fun b => b.toNat / 32 == 6

/-- Takes an item off the front that has at most `fuel` levels, inside `depth` others. -/
def takeWithin : Nat → Nat → Bytes → Option (Item × Bytes)
  | 0, _, _ => none
  | fuel + 1, depth, s => do
    let (h, rest) ← Head.take s
    match h.major with
    | 0 => return (.unsigned h.arg, rest)
    | 1 => return (.negative h.arg, rest)
    | 2 =>
      if h.info = 31 then
        let (chunks, rest) ← takeChunks 2 [] (rest.length + 1) rest
        return (.bytes chunks.flatten, rest)
      else
        let (b, rest) ← split? h.arg rest
        return (.bytes b, rest)
    | 3 =>
      if h.info = 31 then
        let (chunks, rest) ← takeChunks 3 [] (rest.length + 1) rest
        return (.text chunks, rest)
      else
        let (b, rest) ← split? h.arg rest
        return (.text [b], rest)
    | 4 =>
      if maxNesting ≤ depth then none
      else
        let (items, rest) ← takeElements (takeWithin fuel (depth + 1)) h rest
        return (.array items, rest)
    | 5 =>
      if maxNesting ≤ depth then none
      else
        let (entries, rest) ← takeElements (takeWithin fuel (depth + 1)) h rest
        return (.map entries, rest)
    | 6 =>
      let depth := if beginsTag rest then depth + 1 else depth
      if maxNesting < depth then none
      else
        let (content, rest) ← takeWithin fuel depth rest
        return (.tag h.arg content, rest)
    | _ => return (primitive h, rest)

/-- The one item that bytes hold, if they hold one and nothing behind it. Each level of an item
takes a byte of its own. -/
def Item.read? (s : Bytes) : Option Item :=
  match takeWithin (s.length + 1) 0 s with
  | some (item, []) => some item
  | _ => none

end StackScript.Cbor
