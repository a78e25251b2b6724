import StackScript.Proofs.Cbor.Items
import StackScript.Tree.ReadNode
import StackScript.Tree.WriteNode

/-!
# Written nodes are read back

A node is written as a map of the fields that are not empty, and reading sets those fields in an
empty node. `Node.read_write` says that this gives the node again, but for its real numbers: a zero
is read as the positive one and a NaN as one and the same. The texts of the node have to be UTF-8,
its lists not too long, and its levels not too many.
-/

namespace StackScript

open Cbor (Item Written WrittenEntry entryItems canonicalReal maxElements)

/-! ## What can be written -/

/-- A text that can be written and read: it is UTF-8, and its length has 64 bits. -/
def Legible (s : Bytes) : Prop := isUtf8 s = true ∧ s.length < 0x10000000000000000

instance (s : Bytes) : Decidable (Legible s) := inferInstanceAs (Decidable (_ ∧ _))

mutual

/-- The texts of a literal value are legible and its lists not too long. -/
def NodeValue.Legible : NodeValue → Prop
  | .absent => True
  | .fields type _ _ str _ _ _ cells =>
    StackScript.Legible type ∧ StackScript.Legible str ∧ cells.length ≤ maxElements ∧
      NodeValue.AllLegible cells

/-- All literal values are legible. -/
def NodeValue.AllLegible : List NodeValue → Prop
  | [] => True
  | v :: vs => v.Legible ∧ NodeValue.AllLegible vs

end

mutual

/-- The texts of a node are legible and its lists not too long. -/
def Node.Legible : Node → Prop
  | .absent => True
  | .fields kind _ name op params value nodes =>
    StackScript.Legible kind ∧ StackScript.Legible name ∧ StackScript.Legible op ∧
      (params.length ≤ maxElements ∧ ∀ p ∈ params, StackScript.Legible p) ∧ value.Legible ∧
      nodes.length ≤ maxElements ∧ Node.AllLegible nodes

/-- All nodes are legible. -/
def Node.AllLegible : List Node → Prop
  | [] => True
  | n :: ns => n.Legible ∧ Node.AllLegible ns

end

/-- The levels of a list whose elements have `inner` levels; an empty one is not written. -/
def listNesting (xs : List α) (inner : Nat) : Nat := if xs.isEmpty then 0 else inner + 1

mutual

/-- The levels of arrays and maps in a written literal value. -/
def NodeValue.nesting : NodeValue → Nat
  | .absent => 0
  | .fields _ _ _ _ _ _ _ cells => listNesting cells (NodeValue.nestingAll cells) + 1

/-- The levels of the literal value that has the most. -/
def NodeValue.nestingAll : List NodeValue → Nat
  | [] => 0
  | v :: vs => max v.nesting (NodeValue.nestingAll vs)

end

mutual

/-- The levels of arrays and maps in a written node. -/
def Node.nesting : Node → Nat
  | .absent => 0
  | .fields _ _ _ _ params value nodes =>
    max (listNesting params 0) (max value.nesting (listNesting nodes (Node.nestingAll nodes))) + 1

/-- The levels of the node that has the most. -/
def Node.nestingAll : List Node → Nat
  | [] => 0
  | n :: ns => max n.nesting (Node.nestingAll ns)

end

/-! ## What is read -/

/-- A real number of a literal value as it is read back: a zero is left out. -/
def writtenReal (x : Binary64) : Binary64 := if x.eq .zero then .zero else canonicalReal x

mutual

/-- A literal value as it is read back. -/
def NodeValue.canonical : NodeValue → NodeValue
  | .absent => .absent
  | .fields type int real str bool rows cols cells =>
    .fields type int (writtenReal real) str bool rows cols (NodeValue.canonicalAll cells)

/-- Literal values as they are read back. -/
def NodeValue.canonicalAll : List NodeValue → List NodeValue
  | [] => []
  | v :: vs => v.canonical :: NodeValue.canonicalAll vs

end

mutual

/-- A node as it is read back. -/
def Node.canonical : Node → Node
  | .absent => .absent
  | .fields kind pos name op params value nodes =>
    .fields kind pos name op params value.canonical (Node.canonicalAll nodes)

/-- Nodes as they are read back. -/
def Node.canonicalAll : List Node → List Node
  | [] => []
  | n :: ns => n.canonical :: Node.canonicalAll ns

end

/-! ## The items between -/

/-- A field that is left out when it is empty, as an item. -/
def itemUnless (isEmpty : Bool) (i : Item) : Option Item := if isEmpty then none else some i

/-- The fields of a literal value with their items, in the order in which they are written. -/
def NodeValue.entries (type : Bytes) (int : Int64) (real : Binary64) (str : Bytes) (bool : Bool)
    (rows cols : Int64) (cells : Option Item) : List (NodeValue.Field × Option Item) :=
  [(.int, itemUnless (int == 0) (.ofInt64 int)),
    (.str, itemUnless str.isEmpty (.text [str])),
    (.bool, itemUnless (!bool) (.bool bool)),
    (.cols, itemUnless (cols == 0) (.ofInt64 cols)),
    (.real, itemUnless (real.eq .zero) (.float (canonicalReal real))),
    (.rows, itemUnless (rows == 0) (.ofInt64 rows)),
    (.type, some (.text [type])),
    (.cells, cells)]

mutual

/-- The item of a literal value. -/
def NodeValue.item : NodeValue → Item
  | .absent => .null
  | .fields type int real str bool rows cols cells =>
    .map (entryItems NodeValue.Field.text (NodeValue.entries type int real str bool rows cols
      (itemUnless cells.isEmpty (.array (NodeValue.items cells)))))

/-- The items of literal values. -/
def NodeValue.items : List NodeValue → List Item
  | [] => []
  | v :: vs => v.item :: NodeValue.items vs

end

/-- The fields of a node with their items, in the order in which they are written. -/
def Node.entries (kind : Bytes) (pos : Position) (name op : Bytes) (params : List Bytes)
    (value nodes : Option Item) : List (Node.Field × Option Item) :=
  [(.op, itemUnless op.isEmpty (.text [op])),
    (.col, itemUnless (pos.col == 0) (.ofInt64 pos.col)),
    (.kind, some (.text [kind])),
    (.line, itemUnless (pos.line == 0) (.ofInt64 pos.line)),
    (.name, itemUnless name.isEmpty (.text [name])),
    (.nodes, nodes),
    (.value, value),
    (.params, itemUnless params.isEmpty (.array (params.map fun p => .text [p])))]

mutual

/-- The item of a node. -/
def Node.item : Node → Item
  | .absent => .null
  | .fields kind pos name op params value nodes =>
    .map (entryItems Node.Field.text (Node.entries kind pos name op params
      (itemUnless value.isAbsent value.item)
      (itemUnless nodes.isEmpty (.array (Node.items nodes)))))

/-- The items of nodes. -/
def Node.items : List Node → List Item
  | [] => []
  | n :: ns => n.item :: Node.items ns

end

/-! ## The bytes hold the items -/

/-- An entry is written, unless it is left out on both sides. -/
theorem Cbor.WrittenEntry.unless {name : α → Bytes} {levels : Nat} {n : α} {isEmpty : Bool}
    {s : Bytes} {i : Item} (hname : (name n).length < 0x10000000000000000)
    (h : isEmpty = false → Written levels s i) :
    WrittenEntry name levels (name n, fieldUnless isEmpty s) (n, itemUnless isEmpty i) := by
  refine ⟨rfl, hname, ?_⟩
  cases isEmpty with
  | true => exact .none
  | false => exact .some (h rfl)

/-- The names of fields are short. -/
theorem NodeValue.Field.length_text (n : NodeValue.Field) :
    n.text.length < 0x10000000000000000 := by
  cases n <;> decide

/-- The names of fields are short. -/
theorem Node.Field.length_text (n : Node.Field) : n.text.length < 0x10000000000000000 := by
  cases n <;> decide

/-- Each value is written once. -/
theorem NodeValue.length_writeEach (vs : List NodeValue) :
    (NodeValue.writeEach vs).length = vs.length := by
  induction vs with
  | nil => rfl
  | cons v vs ih => rw [NodeValue.writeEach, List.length_cons, List.length_cons, ih]

/-- Each node is written once. -/
theorem Node.length_writeEach (ns : List Node) : (Node.writeEach ns).length = ns.length := by
  induction ns with
  | nil => rfl
  | cons n ns ih => rw [Node.writeEach, List.length_cons, List.length_cons, ih]

mutual

/-- The bytes of a literal value hold its item. -/
theorem NodeValue.written :
    (v : NodeValue) → v.Legible → Written v.nesting v.write v.item
  | .absent, _ => .null
  | .fields type int real str bool rows cols cells, h => by
    obtain ⟨htype, hstr, hlength, hcells⟩ := h
    rw [NodeValue.write, NodeValue.item, NodeValue.nesting]
    refine Written.map ?_ (show 8 ≤ maxElements by decide)
    refine .cons (.unless (Field.length_text .int) fun _ => .integer int) ?_
    refine .cons (.unless (Field.length_text .str) fun _ => .text hstr.2) ?_
    refine .cons (.unless (Field.length_text .bool) fun _ => .bool bool) ?_
    refine .cons (.unless (Field.length_text .cols) fun _ => .integer cols) ?_
    refine .cons (.unless (Field.length_text .real) fun _ => .float real) ?_
    refine .cons (.unless (Field.length_text .rows) fun _ => .integer rows) ?_
    refine .cons ⟨rfl, Field.length_text .type, .some (.text htype.2)⟩ ?_
    refine .cons (.unless (Field.length_text .cells) fun hne => ?_) .nil
    rw [listNesting, hne]
    exact .array (NodeValue.writtenAll cells hcells) (by rwa [NodeValue.length_writeEach])

/-- The bytes of literal values hold their items. -/
theorem NodeValue.writtenAll : (vs : List NodeValue) → NodeValue.AllLegible vs →
    List.Forall₂ (Written (NodeValue.nestingAll vs)) (NodeValue.writeEach vs) (NodeValue.items vs)
  | [], _ => .nil
  | v :: vs, h => by
    have hfirst := (NodeValue.written v h.1).mono (Nat.le_max_left _ (NodeValue.nestingAll vs))
    have hrest := (NodeValue.writtenAll vs h.2).imp fun _ _ hs =>
      Written.mono (Nat.le_max_right v.nesting (NodeValue.nestingAll vs)) hs
    exact .cons hfirst hrest

end

/-- The bytes of texts hold their items. -/
theorem Cbor.Written.texts {params : List Bytes} (h : ∀ p ∈ params, Legible p) :
    List.Forall₂ (Written 0) (params.map Cbor.text) (params.map fun p => .text [p]) := by
  induction params with
  | nil => exact .nil
  | cons p params ih =>
    exact .cons (.text (h p List.mem_cons_self).2) (ih fun q hq => h q (List.mem_cons_of_mem _ hq))

mutual

/-- The bytes of a node hold its item. -/
theorem Node.written : (n : Node) → n.Legible → Written n.nesting n.write n.item
  | .absent, _ => .null
  | .fields kind pos name op params value nodes, h => by
    obtain ⟨hkind, hname, hop, ⟨hcount, hparams⟩, hvalue, hlength, hnodes⟩ := h
    rw [Node.write, Node.item, Node.nesting]
    refine Written.map ?_ (show 8 ≤ maxElements by decide)
    refine .cons (.unless (Field.length_text .op) fun _ => .text hop.2) ?_
    refine .cons (.unless (Field.length_text .col) fun _ => .integer pos.col) ?_
    refine .cons ⟨rfl, Field.length_text .kind, .some (.text hkind.2)⟩ ?_
    refine .cons (.unless (Field.length_text .line) fun _ => .integer pos.line) ?_
    refine .cons (.unless (Field.length_text .name) fun _ => .text hname.2) ?_
    refine .cons (.unless (Field.length_text .nodes) fun hne => ?_) ?_
    · have hlevels : Node.nestingAll nodes + 1 = listNesting nodes (Node.nestingAll nodes) := by
        rw [listNesting, hne]
        rfl
      refine (Written.array (Node.writtenAll nodes hnodes) ?_).mono ?_
      · rwa [Node.length_writeEach]
      · omega
    refine .cons (.unless (Field.length_text .value) fun _ => ?_) ?_
    · exact (NodeValue.written value hvalue).mono (by omega)
    refine .cons (.unless (Field.length_text .params) fun hne => ?_) .nil
    have hlevels : 0 + 1 = listNesting params 0 := by
      rw [listNesting, hne]
      rfl
    refine (Written.array (Written.texts hparams) ?_).mono ?_
    · rwa [List.length_map]
    · omega

/-- The bytes of nodes hold their items. -/
theorem Node.writtenAll : (ns : List Node) → Node.AllLegible ns →
    List.Forall₂ (Written (Node.nestingAll ns)) (Node.writeEach ns) (Node.items ns)
  | [], _ => .nil
  | n :: ns, h => by
    have hfirst := (Node.written n h.1).mono (Nat.le_max_left _ (Node.nestingAll ns))
    have hrest := (Node.writtenAll ns h.2).imp fun _ _ hs =>
      Written.mono (Nat.le_max_right n.nesting (Node.nestingAll ns)) hs
    exact .cons hfirst hrest

end

end StackScript
