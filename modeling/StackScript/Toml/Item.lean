import StackScript.Number.Binary64

/-!
# Items of a settings file

A settings file in TOML is a list of statements: headers that name a table and pairs of a key and
a value. `Item` is a value as it is written; what the statements define together is a `Table`.
-/

namespace StackScript.Toml

/-- The names that lead to something from the whole. -/
abbrev Route := List Bytes

/-- A key: a name, and the names of the tables in front of it. -/
structure Key where
  /-- The names in front. -/
  above : Route
  /-- The last name. -/
  name : Bytes
deriving DecidableEq

/-- All the names of a key. -/
def Key.route (k : Key) : Route := k.above ++ [k.name]

/-- A value as it is written. -/
inductive Item
  | string (s : Bytes)
  | integer (n : Int64)
  | real (x : Binary64)
  | boolean (b : Bool)
  /-- A date, a time or both. -/
  | moment (s : Bytes)
  | array (items : List Item)
  /-- A table between braces. -/
  | inline (pairs : List (Key × Item))

/-- Whether an item is an array. -/
def Item.isArray : Item → Bool
  | array _ => true
  | _ => false

/-- A statement. -/
inductive Statement
  /-- The pairs that follow belong to a table. -/
  | table (key : Key)
  /-- The pairs that follow belong to a new table at the end of an array of tables. -/
  | element (key : Key)
  | pair (key : Key) (value : Item)

end StackScript.Toml
