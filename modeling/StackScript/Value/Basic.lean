import StackScript.Number.Binary64

/-!
# Values

The values that programs compute with. An array is held by its key in a `Store`, so two arrays
with the same cells are different values and a change to an array is seen wherever it is held. A
place that may hold no value at all is a `Cell`.
-/

namespace StackScript

/-- The variants of values. -/
inductive Kind
  | integer
  | real
  | string
  | boolean
  | array
deriving DecidableEq

namespace Kind

/-- The number of a variant in encoded values. -/
def tag : Kind → UInt8
  | integer => 1
  | real => 2
  | string => 3
  | boolean => 4
  | array => 5

/-- The variant with a given number. -/
def ofTag? (t : UInt8) : Option Kind :=
  match t with
  | 1 => some integer
  | 2 => some real
  | 3 => some string
  | 4 => some boolean
  | 5 => some array
  | _ => none

/-- The name of a variant. -/
def name : Kind → Bytes
  | integer => "Integer"
  | real => "Real"
  | string => "String"
  | boolean => "Boolean"
  | array => "Array"

/-- The name of the variant with a given number; a number without a variant is shown. -/
def nameOfTag (t : UInt8) : Bytes :=
  match ofTag? t with
  | some k => k.name
  | none => "Kind(" ++ decimal t.toNat ++ ")"

end Kind

/-- A value of a running program. -/
inductive Value
  /-- A signed 64-bit integer. -/
  | integer (n : Int64)
  /-- A binary64 number. -/
  | real (x : Binary64)
  /-- A byte string. -/
  | string (s : Bytes)
  /-- A truth value. -/
  | boolean (b : Bool)
  /-- The array with the given key. -/
  | array (key : Nat)
deriving DecidableEq

/-- A place that may hold a value. -/
abbrev Cell := Option Value

namespace Value

/-- The variant of a value. -/
def kind : Value → Kind
  | integer _ => .integer
  | real _ => .real
  | string _ => .string
  | boolean _ => .boolean
  | array _ => .array

/-- Whether two values are the same constant: of one variant with equal contents, where numbers
compare numerically and an array equals only itself. -/
def identical : Value → Value → Bool
  | integer m, integer n => m == n
  | real x, real y => x.eq y
  | string s, string t => s == t
  | boolean a, boolean b => a == b
  | array i, array j => i == j
  | _, _ => false

end Value

/-- Whether two places hold the same constant; two empty places do. -/
def Cell.identical : Cell → Cell → Bool
  | none, none => true
  | some v, some w => v.identical w
  | _, _ => false

end StackScript
