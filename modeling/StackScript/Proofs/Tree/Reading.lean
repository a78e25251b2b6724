import StackScript.Proofs.Tree.Literals
import StackScript.Proofs.Tree.Wire

/-!
# Fields are read back

Reading a map goes through its entries and sets the field that each key names. A key that was
written for a field names that field as long as it was not read before, so reading entries with
different keys comes down to setting the fields one after the other, in whatever order
(`Item.nodeFields_entries`, `Item.valueFields_entries`).
-/

namespace StackScript

open Cbor (Item Written WrittenEntry entryItems canonicalReal maxElements matchKey?)

namespace Cbor

/-! ## Items of one field -/

/-- A text is read as one. -/
theorem Item.asText_text {s : Bytes} (h : isUtf8 s = true) : (Item.text [s]).asText = .ok s := by
  have hall : ([s].all isUtf8) = true := by simp [h]
  unfold Item.asText
  simp only [Item.untag, bind, Except.bind]
  rw [if_pos hall, List.flatten_cons, List.flatten_nil, List.append_nil]
  rfl

/-- An integer is read as one. -/
theorem Item.asInt64_ofInt64 (n : Int64) : (Item.ofInt64 n).asInt64 = .ok n := by
  have hlow : -0x8000000000000000 ≤ n.toInt := n.le_toInt
  have hhigh : n.toInt < 0x8000000000000000 := n.toInt_lt
  unfold Item.ofInt64
  split
  · rename_i hpos
    have hvalue : Int64.ofNat n.toInt.toNat = n := by
      rw [← Int64.ofInt_eq_ofNat, Int.toNat_of_nonneg hpos, Int64.ofInt_toInt]
    unfold Item.asInt64
    simp only [Item.untag, bind, Except.bind]
    rw [if_pos (by omega), hvalue]
    rfl
  · have hvalue : Int64.ofInt (-1 - ((-1 - n.toInt).toNat : Int)) = n := by
      rw [Int.toNat_of_nonneg (by omega), show -1 - (-1 - n.toInt) = n.toInt by omega,
        Int64.ofInt_toInt]
    unfold Item.asInt64
    simp only [Item.untag, bind, Except.bind]
    rw [if_pos (by omega), hvalue]
    rfl

/-- An array of texts is read as texts. -/
theorem Item.asTexts_array {params : List Bytes} (h : ∀ p ∈ params, isUtf8 p = true) :
    (Item.array (params.map fun p => .text [p])).asTexts = .ok params := by
  have heach (acc : List Bytes) :
      readEach Item.asText acc (params.map fun p => .text [p]) = .ok (acc.reverse ++ params) := by
    induction params generalizing acc with
    | nil => rw [List.append_nil]; rfl
    | cons p params ih =>
      rw [List.map_cons, readEach, Item.asText_text (h p List.mem_cons_self)]
      simp only
      rw [ih fun q hq => h q (List.mem_cons_of_mem _ hq)]
      simp
  unfold Item.asTexts
  simp only [Item.untag, bind, Except.bind]
  exact heach []

/-- A key that is the name of a field not read yet stands for that field. -/
theorem matchKey?_name {fields : List α} {name : α → Bytes}
    (hname : ∀ m n, name m = name n → m = n) {n : α} (hn : n ∈ fields) :
    matchKey? fields name (some (name n)) = some n := by
  have hfind : (fields.find? fun f => name f == name n) = some n := by
    cases hfound : fields.find? fun f => name f == name n with
    | none =>
      have hdiffers := List.find?_eq_none.mp hfound n hn
      exact absurd (beq_self_eq_true (name n)) hdiffers
    | some m =>
      have hsame := List.find?_some hfound
      rw [hname m n (eq_of_beq hsame)]
  unfold matchKey?
  rw [Option.bind_some, hfind, Option.some_or]

/-- A text is read as a key. -/
theorem Item.asKey_text {s : Bytes} (h : isUtf8 s = true) :
    (Item.text [s]).asKey = .ok (some s) := by
  have hall : ([s].all isUtf8) = true := by simp [h]
  unfold Item.asKey
  simp only
  rw [if_pos hall, List.flatten_cons, List.flatten_nil, List.append_nil]

/-- A field of `f` is set to what is read from its item, if there is one. -/
def setField (get : Item → Except WireError α) (set : α → β) (f : β) :
    Option Item → Except WireError β
  | none => .ok f
  | some i => (get i).map set

/-- A value that is read is set. -/
theorem map_eq_ok {x : Except WireError α} {a : α} (set : α → β) (h : x = .ok a) :
    x.map set = .ok (set a) := by
  rw [h]
  rfl

/-- A field that was left out when it was empty has its value. -/
theorem setField_unless {get : Item → Except WireError α} {set : α → β} {f : β} {isEmpty : Bool}
    {i : Item} {a : α} (hempty : isEmpty = true → set a = f)
    (hget : isEmpty = false → get i = .ok a) :
    setField get set f (itemUnless isEmpty i) = .ok (set a) := by
  cases isEmpty with
  | true => exact congrArg Except.ok (hempty rfl).symm
  | false => exact map_eq_ok set (hget rfl)

/-- A change that does not matter for setting a field can be made before or after. -/
theorem setField_map (get : Item → Except WireError α) (set : α → β) (f : β) (T : β → β)
    (i? : Option Item) :
    (setField get set f i?).map T = setField get (fun a => T (set a)) (T f) i? := by
  cases i? with
  | none => rfl
  | some i =>
    show ((get i).map set).map T = (get i).map fun a => T (set a)
    cases get i <;> rfl

/-- Entries are put one after another. -/
theorem foldlM_cons_ok {φ ε : Type} {step : φ → ε → Except WireError φ} {f f' g : φ} {e : ε}
    {es : List ε} (hstep : step f e = .ok f') (hrest : es.foldlM step f' = .ok g) :
    (e :: es).foldlM step f = .ok g := by
  rw [List.foldlM_cons, hstep]
  exact hrest

/-- Entries of different fields, none of which was read before, set the fields one after the other.
`read` is how entries are read into a record and `mark` says which of its fields are unread. -/
theorem read_entries {ν φ : Type} [DecidableEq ν] {name : ν → Bytes}
    {read : φ → List Item → Except WireError φ} (mark : List ν → φ → φ)
    {put : φ → Option Item → ν → Except WireError φ} (hnil : ∀ f, read f [] = .ok f)
    (hnone : ∀ f n, put f none n = .ok f)
    (hcons : ∀ f U n i rest, n ∈ U → read (mark U f) (.text [name n] :: i :: rest) =
      ((put f (some i) n).map (mark (U.erase n))).bind fun g => read g rest)
    {es : List (ν × Option Item)} (hnodup : (es.map Prod.fst).Nodup) {f g : φ} {U : List ν}
    (hunread : ∀ e ∈ es, e.1 ∈ U) (h : es.foldlM (fun f e => put f e.2 e.1) f = .ok g) :
    ∃ V, read (mark U f) (entryItems name es) = .ok (mark V g) := by
  induction es generalizing f U with
  | nil =>
    obtain rfl : f = g := Except.ok.inj h
    exact ⟨U, hnil _⟩
  | cons e es ih =>
    obtain ⟨n, i?⟩ := e
    obtain ⟨hfirst, hrest⟩ := List.nodup_cons.mp hnodup
    obtain ⟨f', hput, hfold⟩ := except_bind_eq_ok h
    cases i? with
    | none =>
      obtain rfl : f = f' := Except.ok.inj ((hnone f n).symm.trans hput)
      exact ih hrest (fun e he => hunread e (List.mem_cons_of_mem _ he)) hfold
    | some i =>
      -- The field is no longer unread, but those of the other entries are.
      have hothers : ∀ e ∈ es, e.1 ∈ U.erase n := by
        intro e he
        have hne : e.1 ≠ n := by
          rintro rfl
          have hmem : e.1 ∈ es.map Prod.fst := List.mem_map_of_mem he
          exact hfirst hmem
        exact (List.mem_erase_of_ne hne).mpr (hunread e (List.mem_cons_of_mem _ he))
      obtain ⟨V, hV⟩ := ih hrest hothers hfold
      have hset : put f (some i) n = .ok f' := hput
      refine ⟨V, ?_⟩
      rw [entryItems, hcons _ _ _ _ _ (hunread _ List.mem_cons_self), hset]
      exact hV

end Cbor

/-! ## Literal values -/

/-- Fields have their own names. -/
theorem NodeValue.Field.text_inj (m n : NodeValue.Field) : m.text = n.text → m = n := by
  cases m <;> cases n <;> decide

/-- The names of fields are text. -/
theorem NodeValue.Field.isUtf8_text (n : NodeValue.Field) : isUtf8 n.text = true := by
  cases n <;> decide

/-- Sets a field of a literal value to what is read from its item, if there is one. -/
def NodeValue.Fields.put (f : NodeValue.Fields) (i? : Option Item) :
    NodeValue.Field → Except WireError NodeValue.Fields
  | .type => Cbor.setField Item.asText (fun x => { f with type := x }) f i?
  | .int => Cbor.setField Item.asInt64 (fun x => { f with int := x }) f i?
  | .real => Cbor.setField Item.asBinary64 (fun x => { f with real := x }) f i?
  | .str => Cbor.setField Item.asText (fun x => { f with str := x }) f i?
  | .bool => Cbor.setField Item.asBool (fun x => { f with bool := x }) f i?
  | .rows => Cbor.setField Item.asInt64 (fun x => { f with rows := x }) f i?
  | .cols => Cbor.setField Item.asInt64 (fun x => { f with cols := x }) f i?
  | .cells => Cbor.setField Item.asValues (fun x => { f with cells := x }) f i?

/-- A field without a value is left. -/
theorem NodeValue.Fields.put_none (f : NodeValue.Fields) (n : NodeValue.Field) :
    f.put none n = .ok f := by
  cases n <;> rfl

/-- Which fields are still unread has no part in setting one. -/
theorem NodeValue.Fields.put_unread (f : NodeValue.Fields) (i? : Option Item)
    (n : NodeValue.Field) (U : List NodeValue.Field) :
    ((f.put i? n).map fun g => { g with unread := U }) = { f with unread := U }.put i? n := by
  cases n <;> exact Cbor.setField_map _ _ f _ i?

/-- The entry of a field that was not read yet sets it. -/
theorem Cbor.Item.valueFields_cons (f : NodeValue.Fields) (U : List NodeValue.Field)
    (n : NodeValue.Field) (i : Item) (rest : List Item) (hn : n ∈ U) :
    Item.valueFields { f with unread := U } (.text [n.text] :: i :: rest) =
      ((f.put (some i) n).map fun g => { g with unread := U.erase n }).bind fun g =>
        Item.valueFields g rest := by
  rw [Item.valueFields, Item.asKey_text n.isUtf8_text, f.put_unread]
  simp only [bind, Except.bind, Cbor.matchKey?_name NodeValue.Field.text_inj hn]
  cases n <;> rfl

/-- The entries of a literal value set its fields. -/
theorem Cbor.Item.valueFields_entries {es : List (NodeValue.Field × Option Item)}
    (hnodup : (es.map Prod.fst).Nodup) {g : NodeValue.Fields}
    (h : es.foldlM (fun (f : NodeValue.Fields) e => f.put e.2 e.1) {} = .ok g) :
    ∃ V, Item.valueFields {} (entryItems NodeValue.Field.text es) = .ok { g with unread := V } :=
  Cbor.read_entries (fun U (f : NodeValue.Fields) => { f with unread := U })
    (fun f => by rw [Item.valueFields]; nofun) NodeValue.Fields.put_none Item.valueFields_cons
    hnodup (fun e _ => by cases e.1 <;> decide) h

/-- No field is written twice. -/
theorem NodeValue.entries_nodup (type : Bytes) (int : Int64) (real : Binary64) (str : Bytes)
    (bool : Bool) (rows cols : Int64) (cells : Option Item) :
    ((NodeValue.entries type int real str bool rows cols cells).map Prod.fst).Nodup := by
  show [NodeValue.Field.int, .str, .bool, .cols, .real, .rows, .type, .cells].Nodup
  decide

/-- The fields of a literal value are read back from its entries. -/
theorem NodeValue.put_entries {type str : Bytes} (htype : isUtf8 type = true)
    (hstr : isUtf8 str = true) (int : Int64) (real : Binary64) (bool : Bool) (rows cols : Int64)
    {items : List Item} {cells canonical : List NodeValue}
    (hempty : cells.isEmpty = true → canonical = [])
    (hcells : (Item.array items).asValues = .ok canonical) :
    (NodeValue.entries type int real str bool rows cols
        (itemUnless cells.isEmpty (.array items))).foldlM
      (fun (f : NodeValue.Fields) e => f.put e.2 e.1) {} =
        .ok { type, int, real := writtenReal real, str, bool, rows, cols, cells := canonical } := by
  -- The entries are put one after another. One that is left out has the value that its field has
  -- from the beginning.
  have hint : NodeValue.Fields.put {} (itemUnless (int == 0) (.ofInt64 int)) .int =
      .ok { int } :=
    Cbor.setField_unless (fun h => by rw [eq_of_beq h]) fun _ => Item.asInt64_ofInt64 int
  have hstr : NodeValue.Fields.put { int } (itemUnless str.isEmpty (.text [str])) .str =
      .ok { int, str } :=
    Cbor.setField_unless (fun h => by rw [List.isEmpty_iff.mp h]) fun _ => Item.asText_text hstr
  have hbool : NodeValue.Fields.put { int, str } (itemUnless (!bool) (.bool bool)) .bool =
      .ok { int, str, bool } :=
    Cbor.setField_unless (fun h => by rw [show bool = false by simpa using h]) fun _ => rfl
  have hcols : NodeValue.Fields.put { int, str, bool } (itemUnless (cols == 0) (.ofInt64 cols))
      .cols = .ok { int, str, bool, cols } :=
    Cbor.setField_unless (fun h => by rw [eq_of_beq h]) fun _ => Item.asInt64_ofInt64 cols
  have hreal : NodeValue.Fields.put { int, str, bool, cols }
      (itemUnless (real.eq .zero) (.float (canonicalReal real))) .real =
      .ok { int, str, bool, cols, real := writtenReal real } :=
    Cbor.setField_unless (fun h => by rw [writtenReal, if_pos h])
      fun h => by rw [writtenReal, h]; rfl
  have hrows : NodeValue.Fields.put { int, str, bool, cols, real := writtenReal real }
      (itemUnless (rows == 0) (.ofInt64 rows)) .rows =
      .ok { int, str, bool, cols, real := writtenReal real, rows } :=
    Cbor.setField_unless (fun h => by rw [eq_of_beq h]) fun _ => Item.asInt64_ofInt64 rows
  have htype : NodeValue.Fields.put { int, str, bool, cols, real := writtenReal real, rows }
      (some (.text [type])) .type =
      .ok { int, str, bool, cols, real := writtenReal real, rows, type } :=
    Cbor.map_eq_ok _ (Item.asText_text htype)
  have hcells : NodeValue.Fields.put { int, str, bool, cols, real := writtenReal real, rows, type }
      (itemUnless cells.isEmpty (.array items)) .cells =
      .ok { int, str, bool, cols, real := writtenReal real, rows, type, cells := canonical } :=
    Cbor.setField_unless (fun h => by rw [hempty h]) fun _ => hcells
  exact Cbor.foldlM_cons_ok hint <| Cbor.foldlM_cons_ok hstr <| Cbor.foldlM_cons_ok hbool <|
    Cbor.foldlM_cons_ok hcols <| Cbor.foldlM_cons_ok hreal <| Cbor.foldlM_cons_ok hrows <|
    Cbor.foldlM_cons_ok htype <| Cbor.foldlM_cons_ok hcells rfl

mutual

/-- The item of a literal value is read as the value. -/
theorem NodeValue.asValue_item :
    (v : NodeValue) → v.Legible → v.item.asValue false = .ok v.canonical
  | .absent, _ => by
    rw [NodeValue.item, Item.asValue]
    rfl
  | .fields type int real str bool rows cols cells, h => by
    obtain ⟨htype, hstr, -, hcells⟩ := h
    have harray : (Item.array (NodeValue.items cells)).asValues =
        .ok (NodeValue.canonicalAll cells) := by
      rw [Item.asValues]
      exact NodeValue.eachValue_items cells hcells []
    have hempty : cells.isEmpty = true → NodeValue.canonicalAll cells = [] := by
      intro hnil
      rw [List.isEmpty_iff.mp hnil, NodeValue.canonicalAll]
    obtain ⟨V, hV⟩ := Item.valueFields_entries (NodeValue.entries_nodup ..)
      (NodeValue.put_entries htype.1 hstr.1 int real bool rows cols hempty harray)
    rw [NodeValue.item, Item.asValue, hV]
    rfl

/-- The items of literal values are read as the values. -/
theorem NodeValue.eachValue_items : (vs : List NodeValue) → NodeValue.AllLegible vs →
    (acc : List NodeValue) → Item.eachValue acc (NodeValue.items vs) =
      .ok (acc.reverse ++ NodeValue.canonicalAll vs)
  | [], _, acc => by
    rw [NodeValue.items, Item.eachValue, NodeValue.canonicalAll, List.append_nil]
  | v :: vs, h, acc => by
    rw [NodeValue.items, Item.eachValue, NodeValue.asValue_item v h.1]
    simp only
    rw [NodeValue.eachValue_items vs h.2, NodeValue.canonicalAll]
    simp

end

/-! ## Nodes -/

/-- Fields have their own names. -/
theorem Node.Field.text_inj (m n : Node.Field) : m.text = n.text → m = n := by
  cases m <;> cases n <;> decide

/-- The names of fields are text. -/
theorem Node.Field.isUtf8_text (n : Node.Field) : isUtf8 n.text = true := by
  cases n <;> decide

/-- Sets a field of a node to what is read from its item, if there is one. -/
def Node.Fields.put (f : Node.Fields) (i? : Option Item) :
    Node.Field → Except WireError Node.Fields
  | .kind => Cbor.setField Item.asText (fun x => { f with kind := x }) f i?
  | .line => Cbor.setField Item.asInt64 (fun x => { f with pos := { f.pos with line := x } }) f i?
  | .col => Cbor.setField Item.asInt64 (fun x => { f with pos := { f.pos with col := x } }) f i?
  | .name => Cbor.setField Item.asText (fun x => { f with name := x }) f i?
  | .op => Cbor.setField Item.asText (fun x => { f with op := x }) f i?
  | .params => Cbor.setField Item.asTexts (fun x => { f with params := x }) f i?
  | .value => Cbor.setField (Item.asValue false) (fun x => { f with value := x }) f i?
  | .nodes => Cbor.setField Item.asNodes (fun x => { f with nodes := x }) f i?

/-- A field without a value is left. -/
theorem Node.Fields.put_none (f : Node.Fields) (n : Node.Field) : f.put none n = .ok f := by
  cases n <;> rfl

/-- Which fields are still unread has no part in setting one. -/
theorem Node.Fields.put_unread (f : Node.Fields) (i? : Option Item) (n : Node.Field)
    (U : List Node.Field) :
    ((f.put i? n).map fun g => { g with unread := U }) = { f with unread := U }.put i? n := by
  cases n <;> exact Cbor.setField_map _ _ f _ i?

/-- The entry of a field that was not read yet sets it. -/
theorem Cbor.Item.nodeFields_cons (f : Node.Fields) (U : List Node.Field) (n : Node.Field)
    (i : Item) (rest : List Item) (hn : n ∈ U) :
    Item.nodeFields { f with unread := U } (.text [n.text] :: i :: rest) =
      ((f.put (some i) n).map fun g => { g with unread := U.erase n }).bind fun g =>
        Item.nodeFields g rest := by
  rw [Item.nodeFields, Item.asKey_text n.isUtf8_text, f.put_unread]
  simp only [bind, Except.bind, Cbor.matchKey?_name Node.Field.text_inj hn]
  cases n <;> rfl

/-- The entries of a node set its fields. -/
theorem Cbor.Item.nodeFields_entries {es : List (Node.Field × Option Item)}
    (hnodup : (es.map Prod.fst).Nodup) {g : Node.Fields}
    (h : es.foldlM (fun (f : Node.Fields) e => f.put e.2 e.1) {} = .ok g) :
    ∃ V, Item.nodeFields {} (entryItems Node.Field.text es) = .ok { g with unread := V } :=
  Cbor.read_entries (fun U (f : Node.Fields) => { f with unread := U })
    (fun f => by rw [Item.nodeFields]; nofun) Node.Fields.put_none Item.nodeFields_cons hnodup
    (fun e _ => by cases e.1 <;> decide) h

/-- No field is written twice. -/
theorem Node.entries_nodup (kind : Bytes) (pos : Position) (name op : Bytes) (params : List Bytes)
    (value nodes : Option Item) :
    ((Node.entries kind pos name op params value nodes).map Prod.fst).Nodup := by
  show [Node.Field.op, .col, .kind, .line, .name, .nodes, .value, .params].Nodup
  decide

/-- The fields of a node are read back from its entries. -/
theorem Node.put_entries {kind name op : Bytes} (hkind : isUtf8 kind = true)
    (hname : isUtf8 name = true) (hop : isUtf8 op = true) (pos : Position) {params : List Bytes}
    (hparams : ∀ p ∈ params, isUtf8 p = true) {value : NodeValue} (hvalue : value.Legible)
    {items : List Item} {nodes canonical : List Node}
    (hempty : nodes.isEmpty = true → canonical = [])
    (hnodes : (Item.array items).asNodes = .ok canonical) :
    (Node.entries kind pos name op params (itemUnless value.isAbsent value.item)
        (itemUnless nodes.isEmpty (.array items))).foldlM
      (fun (f : Node.Fields) e => f.put e.2 e.1) {} =
        .ok { kind, pos, name, op, params, value := value.canonical, nodes := canonical } := by
  -- As for literal values, each entry fills one field or, if it is left out, leaves the default.
  have hop : Node.Fields.put {} (itemUnless op.isEmpty (.text [op])) .op = .ok { op } :=
    Cbor.setField_unless (fun h => by rw [List.isEmpty_iff.mp h]) fun _ => Item.asText_text hop
  have hcol : Node.Fields.put { op } (itemUnless (pos.col == 0) (.ofInt64 pos.col)) .col =
      .ok { op, pos := { col := pos.col } } :=
    Cbor.setField_unless (fun h => by rw [eq_of_beq h]) fun _ => Item.asInt64_ofInt64 pos.col
  have hkind : Node.Fields.put { op, pos := { col := pos.col } } (some (.text [kind])) .kind =
      .ok { op, pos := { col := pos.col }, kind } :=
    Cbor.map_eq_ok _ (Item.asText_text hkind)
  have hline : Node.Fields.put { op, pos := { col := pos.col }, kind }
      (itemUnless (pos.line == 0) (.ofInt64 pos.line)) .line = .ok { op, pos, kind } :=
    Cbor.setField_unless (fun h => by rw [eq_of_beq h]) fun _ => Item.asInt64_ofInt64 pos.line
  have hname : Node.Fields.put { op, pos, kind } (itemUnless name.isEmpty (.text [name])) .name =
      .ok { op, pos, kind, name } :=
    Cbor.setField_unless (fun h => by rw [List.isEmpty_iff.mp h]) fun _ => Item.asText_text hname
  have hnodes : Node.Fields.put { op, pos, kind, name }
      (itemUnless nodes.isEmpty (.array items)) .nodes =
      .ok { op, pos, kind, name, nodes := canonical } :=
    Cbor.setField_unless (fun h => by rw [hempty h]) fun _ => hnodes
  have hvalue : Node.Fields.put { op, pos, kind, name, nodes := canonical }
      (itemUnless value.isAbsent value.item) .value =
      .ok { op, pos, kind, name, nodes := canonical, value := value.canonical } := by
    refine Cbor.setField_unless (fun h => ?_) fun _ => NodeValue.asValue_item value hvalue
    cases value with
    | absent => rfl
    | fields => cases h
  have hparams : Node.Fields.put
      { op, pos, kind, name, nodes := canonical, value := value.canonical }
      (itemUnless params.isEmpty (.array (params.map fun p => .text [p]))) .params =
      .ok { op, pos, kind, name, nodes := canonical, value := value.canonical, params } :=
    Cbor.setField_unless (fun h => by rw [List.isEmpty_iff.mp h])
      fun _ => Item.asTexts_array hparams
  exact Cbor.foldlM_cons_ok hop <| Cbor.foldlM_cons_ok hcol <| Cbor.foldlM_cons_ok hkind <|
    Cbor.foldlM_cons_ok hline <| Cbor.foldlM_cons_ok hname <| Cbor.foldlM_cons_ok hnodes <|
    Cbor.foldlM_cons_ok hvalue <| Cbor.foldlM_cons_ok hparams rfl

mutual

/-- The item of a node is read as the node. -/
theorem Node.asNode_item : (n : Node) → n.Legible → n.item.asNode false = .ok n.canonical
  | .absent, _ => by
    rw [Node.item, Item.asNode]
    rfl
  | .fields kind pos name op params value nodes, h => by
    obtain ⟨hkind, hname, hop, ⟨-, hparams⟩, hvalue, -, hnodes⟩ := h
    have harray : (Item.array (Node.items nodes)).asNodes = .ok (Node.canonicalAll nodes) := by
      rw [Item.asNodes]
      exact Node.eachNode_items nodes hnodes []
    have hempty : nodes.isEmpty = true → Node.canonicalAll nodes = [] := by
      intro hnil
      rw [List.isEmpty_iff.mp hnil, Node.canonicalAll]
    obtain ⟨V, hV⟩ := Item.nodeFields_entries (Node.entries_nodup ..)
      (Node.put_entries hkind.1 hname.1 hop.1 pos (fun p hp => (hparams p hp).1) hvalue hempty
        harray)
    rw [Node.item, Item.asNode, hV]
    rfl

/-- The items of nodes are read as the nodes. -/
theorem Node.eachNode_items : (ns : List Node) → Node.AllLegible ns → (acc : List Node) →
    Item.eachNode acc (Node.items ns) = .ok (acc.reverse ++ Node.canonicalAll ns)
  | [], _, acc => by
    rw [Node.items, Item.eachNode, Node.canonicalAll, List.append_nil]
  | n :: ns, h, acc => by
    rw [Node.items, Item.eachNode, Node.asNode_item n h.1]
    simp only
    rw [Node.eachNode_items ns h.2, Node.canonicalAll]
    simp

end

/-- A written node is read as it was, but for the sign of zeros and the bits of NaNs. -/
theorem Node.read_write {n : Node} (h : n.Legible) (hpresent : n.isAbsent = false)
    (hnesting : n.nesting ≤ Cbor.maxNesting) : Node.read n.write = .ok n.canonical := by
  have hitem := Node.asNode_item n h
  unfold Node.read
  rw [(Node.written n h).read? hnesting]
  cases n with
  | absent => cases hpresent
  | fields kind pos name op params value nodes =>
    -- A map is read the same behind a tag.
    show (Node.item _).asNode true = _
    rw [Node.item, Item.asNode] at hitem ⊢
    exact hitem

end StackScript
