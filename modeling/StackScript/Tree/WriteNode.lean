import StackScript.Cbor.Encode
import StackScript.Tree.Node

/-!
# Writing nodes

Nodes and literal values as canonical CBOR maps. A field that is empty, zero or false is left out,
except the kind of a node and the type of a value.
-/

namespace StackScript

/-- A field that is left out when it is empty. -/
def fieldUnless (isEmpty : Bool) (written : Bytes) : Option Bytes :=
  if isEmpty then none else some written

mutual

/-- The bytes of a literal value. -/
def NodeValue.write : NodeValue → Bytes
  | .absent => Cbor.null
  | .fields type int real str bool rows cols cells =>
    Cbor.map [
      ("int", fieldUnless (int == 0) (Cbor.integer int.toInt)),
      ("str", fieldUnless str.isEmpty (Cbor.text str)),
      ("bool", fieldUnless (!bool) (Cbor.bool bool)),
      ("cols", fieldUnless (cols == 0) (Cbor.integer cols.toInt)),
      ("real", fieldUnless (real.eq .zero) (Cbor.float real)),
      ("rows", fieldUnless (rows == 0) (Cbor.integer rows.toInt)),
      ("type", some (Cbor.text type)),
      ("cells", fieldUnless cells.isEmpty (Cbor.array (NodeValue.writeEach cells)))]

/-- The bytes of each of the literal values. -/
def NodeValue.writeEach : List NodeValue → List Bytes
  | [] => []
  | v :: vs => v.write :: NodeValue.writeEach vs

end

/-- Whether there is no literal value. -/
def NodeValue.isAbsent : NodeValue → Bool
  | absent => true
  | _ => false

mutual

/-- The bytes of a node. -/
def Node.write : Node → Bytes
  | .absent => Cbor.null
  | .fields kind pos name op params value nodes =>
    Cbor.map [
      ("op", fieldUnless op.isEmpty (Cbor.text op)),
      ("col", fieldUnless (pos.col == 0) (Cbor.integer pos.col.toInt)),
      ("kind", some (Cbor.text kind)),
      ("line", fieldUnless (pos.line == 0) (Cbor.integer pos.line.toInt)),
      ("name", fieldUnless name.isEmpty (Cbor.text name)),
      ("nodes", fieldUnless nodes.isEmpty (Cbor.array (Node.writeEach nodes))),
      ("value", fieldUnless value.isAbsent value.write),
      ("params", fieldUnless params.isEmpty (Cbor.array (params.map Cbor.text)))]

/-- The bytes of each of the nodes. -/
def Node.writeEach : List Node → List Bytes
  | [] => []
  | n :: ns => n.write :: Node.writeEach ns

end

end StackScript
