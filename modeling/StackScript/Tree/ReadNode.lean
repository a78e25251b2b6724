import StackScript.Cbor.Item
import StackScript.Text.Fold
import StackScript.Tree.Node

/-!
# Reading nodes

Nodes are CBOR maps from the names of their fields. A key is taken for the field whose name it is,
in upper or lower case; the first key for a field counts, and keys for no field are skipped. A
field that is missing, or null, is empty. Tags are looked through.
-/

namespace StackScript

/-- Why bytes are not a node. -/
inductive WireError
  /-- The bytes are not well-formed CBOR. -/
  | malformed
  /-- An item is of another type than its place asks for. -/
  | mismatch
  /-- A text is not UTF-8. -/
  | badText
  /-- The content of a tag is not what the tag asks for. -/
  | badTag
deriving DecidableEq

namespace Cbor

/-- The tag that says that its content is CBOR, and nothing else. -/
def selfDescribed : Nat := 55799

/-- Whether a tag may stand before its content: a date before text, a time before a number, and a
large integer before bytes. -/
def tagFits (number : Nat) (content : Item) : Bool :=
  match number, content with
  | 0, .text _ => true
  | 0, _ => false
  | 1, .unsigned _ => true
  | 1, .negative _ => true
  | 1, .float _ => true
  | 1, _ => false
  | 2, .bytes _ => true
  | 2, _ => false
  | 3, .bytes _ => true
  | 3, _ => false
  | _, _ => true

/-- What is wrong with an item that is not of the type asked for. -/
def Item.misfit : Item → WireError
  | .text chunks => if chunks.all isUtf8 then .mismatch else .badText
  | _ => .mismatch

/-- The integer that tagged bytes stand for, if it has 64 bits at most. -/
def largeInteger (number : Nat) (s : Bytes) : Except WireError Item :=
  let n := bigEndian s
  if number = 2 then if n < 0x10000000000000000 then .ok (.unsigned n) else .error .mismatch
  else if n < 0x8000000000000000 then .ok (.negative n) else .error .mismatch

/-- An item without the tags in front of it. -/
def Item.untag : Item → Except WireError Item
  | .tag number content =>
    if number = selfDescribed then content.untag
    else if !tagFits number content then .error .badTag
    else
      match number, content with
      | 2, .bytes s => largeInteger 2 s
      | 3, .bytes s => largeInteger 3 s
      | _, content => content.untag
  | i => .ok i

/-- The text of an item. -/
def Item.asText (i : Item) : Except WireError Bytes := do
  match ← i.untag with
  | .text chunks => if chunks.all isUtf8 then return chunks.flatten else .error .badText
  | .null | .undefined => return []
  | i => .error i.misfit

/-- The 64-bit integer of an item. A simple value counts as its number. -/
def Item.asInt64 (i : Item) : Except WireError Int64 := do
  match ← i.untag with
  | .unsigned n | .simple n =>
    if n < 0x8000000000000000 then return Int64.ofNat n else .error .mismatch
  | .negative n =>
    if n < 0x8000000000000000 then return Int64.ofInt (-1 - n) else .error .mismatch
  | .null | .undefined => return 0
  | i => .error i.misfit

/-- The number of an item. -/
def Item.asBinary64 (i : Item) : Except WireError Binary64 := do
  match ← i.untag with
  | .unsigned n | .simple n => return .ofFloat (UInt64.ofNat n).toFloat
  | .negative n =>
    if n < 0x8000000000000000 then return .ofInt64 (Int64.ofInt (-1 - n)) else .error .mismatch
  | .float x => return x
  | .null | .undefined => return .zero
  | i => .error i.misfit

/-- The truth value of an item. -/
def Item.asBool (i : Item) : Except WireError Bool := do
  match ← i.untag with
  | .bool b => return b
  | .null | .undefined => return false
  | i => .error i.misfit

/-- The results for all items, unless one fails. -/
def readEach (f : Item → Except WireError α) (acc : List α) : List Item → Except WireError (List α)
  | [] => .ok acc.reverse
  | i :: is =>
    match f i with
    | .ok a => readEach f (a :: acc) is
    | .error e => .error e

/-- The texts of a list. -/
def Item.asTexts (i : Item) : Except WireError (List Bytes) := do
  match ← i.untag with
  | .array items => readEach Item.asText [] items
  | .null | .undefined => return []
  | i => .error i.misfit

/-- The name in a key: none if it is an integer, and a failure if it is neither text nor an integer
or lies below those of 64 bits. -/
def Item.asKey : Item → Except WireError (Option Bytes)
  | .text chunks => if chunks.all isUtf8 then .ok (some chunks.flatten) else .error .badText
  | .unsigned _ => .ok none
  | .negative n => if n < 0x8000000000000000 then .ok none else .error .mismatch
  | _ => .error .mismatch

/-- The field that a key stands for, of those that were not seen before: the one of that very name,
or else one whose name differs in case only. -/
def matchKey? (fields : List α) (name : α → Bytes) (key : Option Bytes) : Option α :=
  key.bind fun k =>
    (fields.find? fun f => name f == k).or
      (fields.find? fun f => (name f).length == k.length && equalFold k (name f))

end Cbor

/-- The names of the fields of a literal value. -/
inductive NodeValue.Field
  | type
  | int
  | real
  | str
  | bool
  | rows
  | cols
  | cells
deriving DecidableEq

namespace NodeValue.Field

/-- A field's name as it is written. -/
def text : Field → Bytes
  | type => "type"
  | int => "int"
  | real => "real"
  | str => "str"
  | bool => "bool"
  | rows => "rows"
  | cols => "cols"
  | cells => "cells"

/-- All fields of a literal value. -/
def all : List Field := [type, int, real, str, bool, rows, cols, cells]

end NodeValue.Field

/-- The fields of a literal value while it is read. -/
structure NodeValue.Fields where
  /-- The fields that were not read yet. -/
  unread : List NodeValue.Field := NodeValue.Field.all
  type : Bytes := []
  int : Int64 := 0
  real : Binary64 := .zero
  str : Bytes := []
  bool : Bool := false
  rows : Int64 := 0
  cols : Int64 := 0
  cells : List NodeValue := []

/-- The literal value with the fields that were read. -/
def NodeValue.Fields.value (f : NodeValue.Fields) : NodeValue :=
  .fields f.type f.int f.real f.str f.bool f.rows f.cols f.cells

/-- The names of the fields of a node. -/
inductive Node.Field
  | kind
  | line
  | col
  | name
  | op
  | params
  | value
  | nodes
deriving DecidableEq

namespace Node.Field

/-- A field's name as it is written. -/
def text : Field → Bytes
  | kind => "kind"
  | line => "line"
  | col => "col"
  | name => "name"
  | op => "op"
  | params => "params"
  | value => "value"
  | nodes => "nodes"

/-- All fields of a node. -/
def all : List Field := [kind, line, col, name, op, params, value, nodes]

end Node.Field

/-- The fields of a node while it is read. -/
structure Node.Fields where
  /-- The fields that were not read yet. -/
  unread : List Node.Field := Node.Field.all
  kind : Bytes := []
  pos : Position := {}
  name : Bytes := []
  op : Bytes := []
  params : List Bytes := []
  value : NodeValue := .absent
  nodes : List Node := []

/-- The node with the fields that were read. -/
def Node.Fields.node (f : Node.Fields) : Node :=
  .fields f.kind f.pos f.name f.op f.params f.value f.nodes

namespace Cbor

mutual

/-- The literal value of an item. Null stands for no value, but not behind a tag. -/
def Item.asValue (tagged : Bool) : Item → Except WireError NodeValue
  | .null | .undefined => .ok (if tagged then NodeValue.Fields.value {} else .absent)
  | .map entries => do
    let f ← Item.valueFields {} entries
    return f.value
  | .tag number content =>
    if number = selfDescribed then content.asValue true
    else if !tagFits number content then .error .badTag
    else if number = 2 || number = 3 then .error .mismatch
    else content.asValue true
  | i => .error i.misfit

/-- The fields of a literal value from the keys and values of a map. -/
def Item.valueFields (f : NodeValue.Fields) : List Item → Except WireError NodeValue.Fields
  | k :: v :: rest => do
    let key ← k.asKey
    match matchKey? f.unread NodeValue.Field.text key with
    | none => Item.valueFields f rest
    | some n =>
      let f := { f with unread := f.unread.erase n }
      let f ←
        match n with
        | .type => v.asText.map fun x => { f with type := x }
        | .int => v.asInt64.map fun x => { f with int := x }
        | .real => v.asBinary64.map fun x => { f with real := x }
        | .str => v.asText.map fun x => { f with str := x }
        | .bool => v.asBool.map fun x => { f with bool := x }
        | .rows => v.asInt64.map fun x => { f with rows := x }
        | .cols => v.asInt64.map fun x => { f with cols := x }
        | .cells => v.asValues.map fun x => { f with cells := x }
      Item.valueFields f rest
  | _ => .ok f

/-- The literal values of a list. -/
def Item.asValues : Item → Except WireError (List NodeValue)
  | .null | .undefined => .ok []
  | .array items => Item.eachValue [] items
  | .tag number content =>
    if number = selfDescribed then content.asValues
    else if !tagFits number content then .error .badTag
    else if number = 2 || number = 3 then .error .mismatch
    else content.asValues
  | i => .error i.misfit

/-- The literal values of items, behind those in `acc`, which are in reverse. -/
def Item.eachValue (acc : List NodeValue) : List Item → Except WireError (List NodeValue)
  | [] => .ok acc.reverse
  | i :: is =>
    match i.asValue false with
    | .ok v => Item.eachValue (v :: acc) is
    | .error e => .error e

end

mutual

/-- The node of an item. Null stands for no node, but not behind a tag. -/
def Item.asNode (tagged : Bool) : Item → Except WireError Node
  | .null | .undefined => .ok (if tagged then Node.Fields.node {} else .absent)
  | .map entries => do
    let f ← Item.nodeFields {} entries
    return f.node
  | .tag number content =>
    if number = selfDescribed then content.asNode true
    else if !tagFits number content then .error .badTag
    else if number = 2 || number = 3 then .error .mismatch
    else content.asNode true
  | i => .error i.misfit

/-- The fields of a node from the keys and values of a map. -/
def Item.nodeFields (f : Node.Fields) : List Item → Except WireError Node.Fields
  | k :: v :: rest => do
    let key ← k.asKey
    match matchKey? f.unread Node.Field.text key with
    | none => Item.nodeFields f rest
    | some n =>
      let f := { f with unread := f.unread.erase n }
      let f ←
        match n with
        | .kind => v.asText.map fun x => { f with kind := x }
        | .line => v.asInt64.map fun x => { f with pos := { f.pos with line := x } }
        | .col => v.asInt64.map fun x => { f with pos := { f.pos with col := x } }
        | .name => v.asText.map fun x => { f with name := x }
        | .op => v.asText.map fun x => { f with op := x }
        | .params => v.asTexts.map fun x => { f with params := x }
        | .value => (v.asValue false).map fun x => { f with value := x }
        | .nodes => v.asNodes.map fun x => { f with nodes := x }
      Item.nodeFields f rest
  | _ => .ok f

/-- The nodes of a list. -/
def Item.asNodes : Item → Except WireError (List Node)
  | .null | .undefined => .ok []
  | .array items => Item.eachNode [] items
  | .tag number content =>
    if number = selfDescribed then content.asNodes
    else if !tagFits number content then .error .badTag
    else if number = 2 || number = 3 then .error .mismatch
    else content.asNodes
  | i => .error i.misfit

/-- The nodes of items, behind those in `acc`, which are in reverse. -/
def Item.eachNode (acc : List Node) : List Item → Except WireError (List Node)
  | [] => .ok acc.reverse
  | i :: is =>
    match i.asNode false with
    | .ok n => Item.eachNode (n :: acc) is
    | .error e => .error e

end

end Cbor

/-- The node that bytes hold; null holds an empty one. -/
def Node.read (s : Bytes) : Except WireError Node :=
  match Cbor.Item.read? s with
  | some item => item.asNode true
  | none => .error .malformed

end StackScript
