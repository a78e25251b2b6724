import StackScript.Proofs.Tree.Complete

/-!
# Written trees are read back

Every complete tree has a node, and the tree of the node that is read back from its bytes is like
it. The proof goes over the tree: each kind of node puts its parts where reading looks for them, and
a part that may be left out comes last or is found empty.
-/

namespace StackScript

open Cbor (maxElements)

variable {name : Bytes} {c : Cell} {col cond row value : Expr Cell} {args : List (Expr Cell)}
  {params : List Bytes} {ns : List Node} {n : Node} {body yes : Stmt Cell} {d : Stmt Datum}

variable {st : Store}

/-! ## Parts of nodes -/

/-- The names of the kinds of expressions can be written. -/
theorem ExprKind.legible_name (k : ExprKind) : Legible k.name := by
  cases k <;> decide

/-- A kind of expression is read from its name. -/
theorem ExprKind.ofName?_name (k : ExprKind) : ExprKind.ofName? k.name = some k := by
  cases k <;> decide

/-- The names of the kinds of statements can be written. -/
theorem StmtKind.legible_name (k : StmtKind) : Legible k.name := by
  cases k <;> decide

/-- A kind of statement is read from its name. -/
theorem StmtKind.ofName?_name (k : StmtKind) : StmtKind.ofName? k.name = some k := by
  cases k <;> decide

/-- The operators of the language can be written and read. -/
theorem Operator.symbol_spec :
    ∀ op ∈ Operator.all, Legible op.symbol ∧ Operator.ofSymbol? op.symbol = some op := by
  decide

/-- A name that is there is not missed. -/
theorem Named.unlessNamed (h : Named name) (pos : Position) (kind : Bytes) :
    NodeError.unlessNamed pos kind name = .ok () := by
  unfold NodeError.unlessNamed
  rw [if_neg (by simpa using h.1)]

/-- What is written for a node is absent if the node is. -/
theorem Node.isAbsent_canonical (n : Node) : n.canonical.isAbsent = n.isAbsent := by
  cases n <;> rfl

/-- As many nodes are read as were written. -/
theorem Node.length_canonicalAll (ns : List Node) :
    (Node.canonicalAll ns).length = ns.length := by
  induction ns with
  | nil => rfl
  | cons n ns ih => rw [Node.canonicalAll, List.length_cons, List.length_cons, ih]

/-- A literal has a literal value that is legible and read as a datum like its own. -/
theorem Cell.Portable.nodeValue (h : c.Portable st) :
    ∃ v d, Cell.nodeValue st c = .ok v ∧ v.isAbsent = false ∧ v.Legible ∧
      v.canonical.datum = .ok d ∧ c.ReadAs st d := by
  obtain ⟨w, rfl, hwhole, htexts⟩ := h
  obtain ⟨e, hdescribes, hshaped⟩ := hwhole.exists_describes
  obtain ⟨d, hd, halike⟩ := Datum.datum_nodeValue e hshaped
  refine ⟨e.nodeValue, d, ?_, ?_, hdescribes.legible hshaped htexts, hd,
    ⟨w, e, rfl, hdescribes, halike⟩⟩
  · have hsnapshot : Cell.snapshot st (some w) = .ok e := hdescribes.snapshot
    unfold Cell.nodeValue
    rw [hsnapshot]
  · cases e <;> rfl

/-- A node that can be written, and that is read back as what `read` makes of it. -/
structure Node.Carries (read : Node → Except NodeError α) (n : Node) (d : α) : Prop where
  present : n.isAbsent = false
  legible : n.Legible
  reads : read n.canonical = .ok d

/-- A node carries what is read from its parts. -/
theorem Node.Carries.fields {read : Node → Except NodeError α} {kind op : Bytes} {pos : Position}
    {value : NodeValue} {d : α} (hkind : StackScript.Legible kind)
    (hname : StackScript.Legible name) (hop : StackScript.Legible op)
    (hparams : params.length ≤ maxElements ∧ ∀ p ∈ params, StackScript.Legible p)
    (hvalue : value.Legible) (hlength : ns.length ≤ maxElements) (hns : Node.AllLegible ns)
    (hread : read (.fields kind pos name op params value.canonical (Node.canonicalAll ns)) =
      .ok d) : (Node.fields kind pos name op params value ns).Carries read d :=
  ⟨rfl, ⟨hkind, hname, hop, hparams, hvalue, hlength, hns⟩, hread⟩

/-- Nodes that carry something can be written. -/
theorem Node.allLegible {read : Node → Except NodeError α} {ds : List α}
    (h : List.Forall₂ (Node.Carries read) ns ds) : Node.AllLegible ns := by
  induction h with
  | nil => trivial
  | cons hn _ ih => exact ⟨hn.legible, ih⟩

/-- No parameters can be written. -/
theorem legible_noParams :
    ([] : List Bytes).length ≤ maxElements ∧ ∀ p ∈ ([] : List Bytes), Legible p :=
  ⟨by decide, nofun⟩

/-! ## Expressions -/

/-- Operands that are there are read one after the other. -/
theorem Node.operands_canonical {ds : List (Expr Datum)}
    (h : List.Forall₂ (Node.Carries Node.expr) ns ds) (pos : Position) (kind : Bytes)
    (i count : Nat) (hcount : ns.length = count) :
    Node.operands pos kind i count (Node.canonicalAll ns) = .ok ds := by
  subst hcount
  induction h generalizing i with
  | nil => rfl
  | @cons n d ns ds hn _ ih =>
    rw [Node.canonicalAll, Node.operands, Node.isAbsent_canonical, hn.present, hn.reads]
    simp only [List.length_cons, Nat.add_sub_cancel, ih]
    rfl

/-- An expression has a node, which is read back as an expression like it. -/
def Expr.RoundTrips (st : Store) (e : Expr Cell) : Prop :=
  ∃ n d, e.node st = .ok n ∧ n.Carries Node.expr d ∧ e.Alike (Cell.ReadAs st) d

/-- Expressions have nodes, which are read back as expressions like them. -/
def Expr.AllRoundTrip (st : Store) (es : List (Expr Cell)) : Prop :=
  ∃ ns ds, Expr.nodes st es = .ok ns ∧ List.Forall₂ (Node.Carries Node.expr) ns ds ∧
    List.Forall₂ (Expr.Alike (Cell.ReadAs st)) es ds

-- Every case below opens with one of the equations of these.
attribute [local simp] Expr.node Expr.nodes Stmt.node Stmt.nodes

namespace Expr.RoundTrips

/-- A literal that can be written is read again. -/
theorem literal (pos : Position) (h : c.Portable st) : Expr.RoundTrips st (.literal pos c) := by
  obtain ⟨v, d, hv, hpresent, hlegible, hd, halike⟩ := h.nodeValue
  refine ⟨.fields ExprKind.literal.name pos [] [] [] v [], .literal pos d, ?_, ?_,
    .literal pos halike⟩
  · rw [Expr.node, hv]
    rfl
  · refine .fields ExprKind.literal.legible_name legible_nil legible_nil legible_noParams
      hlegible (by decide) trivial ?_
    unfold Node.expr
    simp only [ExprKind.ofName?_name]
    cases v with
    | absent => cases hpresent
    | fields =>
      rw [NodeValue.canonical] at hd ⊢
      simp only [hd]

/-- A variable is read again. -/
theorem load (pos : Position) (hname : Named name) : Expr.RoundTrips st (.load pos name) := by
  refine ⟨.fields ExprKind.load.name pos name [] [] .absent [], .load pos name, rfl, ?_,
    .load pos name⟩
  refine .fields ExprKind.load.legible_name hname.2 legible_nil legible_noParams
      trivial (by decide) trivial ?_
  unfold Node.expr
  simp only [ExprKind.ofName?_name, hname.unlessNamed]
  rfl

/-- An element is read again if its indices are. -/
theorem element (pos : Position) (hname : Named name) (hrow : Expr.RoundTrips st row)
    (hcol : Expr.RoundTrips st col) : Expr.RoundTrips st (.element pos name row col) := by
  obtain ⟨r, r', hr, hrc, hralike⟩ := hrow
  obtain ⟨c, c', hc, hcc, hcalike⟩ := hcol
  have hparts : List.Forall₂ (Node.Carries Node.expr) [r, c] [r', c'] := .cons hrc (.cons hcc .nil)
  refine ⟨.fields ExprKind.element.name pos name [] [] .absent [r, c], .element pos name r' c',
    ?_, ?_, .element pos name hralike hcalike⟩
  · rw [Expr.node, hr, hc]
    rfl
  · refine .fields ExprKind.element.legible_name hname.2 legible_nil legible_noParams
      trivial (show 2 ≤ maxElements by decide) (Node.allLegible hparts) ?_
    unfold Node.expr
    simp only [ExprKind.ofName?_name, hname.unlessNamed, Node.operands_canonical hparts _ _ 0 2 rfl]
    rfl

/-- A new array is read again if its parts are. -/
theorem newArray (pos : Position) {rows cols : Expr Cell} {fill : Cell}
    (hrows : Expr.RoundTrips st rows) (hcols : Expr.RoundTrips st cols) (hfill : fill.Portable st) :
    Expr.RoundTrips st (.newArray pos rows cols fill) := by
  obtain ⟨r, r', hr, hrc, hralike⟩ := hrows
  obtain ⟨c, c', hc, hcc, hcalike⟩ := hcols
  obtain ⟨v, d, hv, -, hlegible, hd, halike⟩ := hfill.nodeValue
  have hparts : List.Forall₂ (Node.Carries Node.expr) [r, c] [r', c'] := .cons hrc (.cons hcc .nil)
  refine ⟨.fields ExprKind.newArray.name pos [] [] [] v [r, c], .newArray pos r' c' d, ?_, ?_,
    .newArray pos hralike hcalike halike⟩
  · obtain ⟨w, rfl, -⟩ := hfill
    rw [Expr.node]
    simp only [hv, hr, hc]
    rfl
  · refine .fields ExprKind.newArray.legible_name legible_nil legible_nil legible_noParams
      hlegible (show 2 ≤ maxElements by decide) (Node.allLegible hparts) ?_
    unfold Node.expr
    simp only [ExprKind.ofName?_name, Node.operands_canonical hparts _ _ 0 2 rfl, hd]
    rfl

/-- A call is read again if its arguments are. -/
theorem call (pos : Position) (hname : Named name) (hlength : args.length ≤ maxElements)
    (hargs : Expr.AllRoundTrip st args) : Expr.RoundTrips st (.call pos name args) := by
  obtain ⟨ns, ds, hns, hparts, halike⟩ := hargs
  have hcount : ns.length = args.length := hparts.length_eq.trans halike.length_eq.symm
  refine ⟨.fields ExprKind.call.name pos name [] [] .absent ns, .call pos name ds, ?_, ?_,
    .call pos name halike⟩
  · rw [Expr.node, hns]
    rfl
  · refine .fields ExprKind.call.legible_name hname.2 legible_nil legible_noParams trivial
      (hcount ▸ hlength) (Node.allLegible hparts) ?_
    unfold Node.expr
    simp only [ExprKind.ofName?_name, hname.unlessNamed,
      Node.operands_canonical hparts _ _ 0 _ (Node.length_canonicalAll ns).symm]
    rfl

/-- An operation is read again if its operands are. -/
theorem binary (pos : Position) {op : Operator} (hop : op ∈ Operator.all) {left right : Expr Cell}
    (hleft : Expr.RoundTrips st left) (hright : Expr.RoundTrips st right) :
    Expr.RoundTrips st (.binary pos op left right) := by
  obtain ⟨l, l', hl, hlc, hlalike⟩ := hleft
  obtain ⟨r, r', hr, hrc, hralike⟩ := hright
  obtain ⟨hsymbol, hread⟩ := Operator.symbol_spec op hop
  have hparts : List.Forall₂ (Node.Carries Node.expr) [l, r] [l', r'] := .cons hlc (.cons hrc .nil)
  refine ⟨.fields ExprKind.binary.name pos [] op.symbol [] .absent [l, r], .binary pos op l' r', ?_,
    ?_, .binary pos op hlalike hralike⟩
  · rw [Expr.node, hl, hr]
    rfl
  · refine .fields ExprKind.binary.legible_name legible_nil hsymbol legible_noParams
      trivial (show 2 ≤ maxElements by decide) (Node.allLegible hparts) ?_
    unfold Node.expr
    simp only [ExprKind.ofName?_name, hread, Node.operands_canonical hparts _ _ 0 2 rfl]
    rfl

/-- A negation is read again if its operand is. -/
theorem negation (pos : Position) {operand : Expr Cell} (h : Expr.RoundTrips st operand) :
    Expr.RoundTrips st (.negation pos operand) := by
  obtain ⟨n, d, hn, hcarries, halike⟩ := h
  have hparts : List.Forall₂ (Node.Carries Node.expr) [n] [d] := .cons hcarries .nil
  refine ⟨.fields ExprKind.negation.name pos [] [] [] .absent [n], .negation pos d, ?_, ?_,
    .negation pos halike⟩
  · rw [Expr.node, hn]
    rfl
  · refine .fields ExprKind.negation.legible_name legible_nil legible_nil legible_noParams
      trivial (show 1 ≤ maxElements by decide) (Node.allLegible hparts) ?_
    unfold Node.expr
    simp only [ExprKind.ofName?_name, Node.operands_canonical hparts _ _ 0 1 rfl]
    rfl

end Expr.RoundTrips

mutual

/-- A complete expression is written and read back. -/
theorem Expr.Complete.roundTrips : (e : Expr Cell) → e.Complete st → Expr.RoundTrips st e
  | .absent, h => h.elim
  | .literal pos _, h => .literal pos h
  | .load pos _, h => .load pos h
  | .element pos _ row col, ⟨hname, hrow, hcol⟩ =>
    .element pos hname (Expr.Complete.roundTrips row hrow) (Expr.Complete.roundTrips col hcol)
  | .newArray pos rows cols _, ⟨hrows, hcols, hfill⟩ =>
    .newArray pos (Expr.Complete.roundTrips rows hrows) (Expr.Complete.roundTrips cols hcols) hfill
  | .call pos _ args, ⟨hname, hlength, hargs⟩ =>
    .call pos hname hlength (Expr.AllComplete.roundTrips args hargs)
  | .binary pos _ left right, ⟨hop, hleft, hright⟩ =>
    .binary pos hop (Expr.Complete.roundTrips left hleft) (Expr.Complete.roundTrips right hright)
  | .negation pos operand, h => .negation pos (Expr.Complete.roundTrips operand h)

/-- Complete expressions are written and read back. -/
theorem Expr.AllComplete.roundTrips :
    (es : List (Expr Cell)) → Expr.AllComplete st es → Expr.AllRoundTrip st es
  | [], _ => ⟨[], [], rfl, .nil, .nil⟩
  | e :: es, ⟨he, hes⟩ => by
    obtain ⟨n, d, hn, hcarries, halike⟩ := Expr.Complete.roundTrips e he
    obtain ⟨ns, ds, hns, hall, hrest⟩ := Expr.AllComplete.roundTrips es hes
    refine ⟨n :: ns, d :: ds, ?_, .cons hcarries hall, .cons halike hrest⟩
    rw [Expr.nodes, hn, hns]
    rfl

end

/-! ## Statements -/

/-- No operands are read from any nodes. -/
theorem Node.operands_zero (pos : Position) (kind : Bytes) (i : Nat) (ns : List Node) :
    Node.operands pos kind i 0 ns = .ok [] := by
  cases ns <;> rfl

/-- The first operand is read whatever stands behind it. -/
theorem Node.firstOperand_canonical {d : Expr Datum} (h : n.Carries Node.expr d) (pos : Position)
    (kind : Bytes) (ns : List Node) : Node.firstOperand pos kind (n.canonical :: ns) = .ok d := by
  unfold Node.firstOperand
  rw [Node.operands, Node.isAbsent_canonical, h.present, h.reads]
  simp only [Nat.sub_self, Node.operands_zero]
  rfl

/-- A body is read from its place. -/
theorem Node.bodyAt_canonical (h : n.Carries Node.stmt d) (pos : Position) (kind : Bytes) (i : Nat)
    (ns : List Node) : Node.bodyAt pos kind i 0 (n.canonical :: ns) = .ok d := by
  rw [Node.bodyAt, Node.isAbsent_canonical, h.present, h.reads]
  rfl

/-- A body is read from the second of some nodes. -/
theorem Node.bodyAt_second (h : n.Carries Node.stmt d) (pos : Position) (kind : Bytes) (i : Nat)
    (m : Node) (ns : List Node) : Node.bodyAt pos kind i 1 (m :: n.canonical :: ns) = .ok d := by
  rw [Node.bodyAt]
  exact Node.bodyAt_canonical h pos kind i ns

/-- Statements that are there are read one after the other. -/
theorem Node.stmts_canonical {ds : List (Stmt Datum)}
    (h : List.Forall₂ (Node.Carries Node.stmt) ns ds) :
    Node.stmts (Node.canonicalAll ns) = .ok ds := by
  induction h with
  | nil => rfl
  | @cons n d ns ds hn _ ih =>
    rw [Node.canonicalAll, Node.stmts, Node.isAbsent_canonical, hn.present, hn.reads, ih]
    rfl

/-- A statement has a node, which is read back as a statement like it. -/
def Stmt.RoundTrips (st : Store) (s : Stmt Cell) : Prop :=
  ∃ n d, s.node st = .ok n ∧ n.Carries Node.stmt d ∧ s.Alike (Cell.ReadAs st) d

/-- Statements have nodes, which are read back as statements like them. -/
def Stmt.AllRoundTrip (st : Store) (ss : List (Stmt Cell)) : Prop :=
  ∃ ns ds, Stmt.nodes st ss = .ok ns ∧ List.Forall₂ (Node.Carries Node.stmt) ns ds ∧
    List.Forall₂ (Stmt.Alike (Cell.ReadAs st)) ss ds

namespace Stmt.RoundTrips

/-- A block is read again if its statements are. -/
theorem block (pos : Position) {body : List (Stmt Cell)} (hlength : body.length ≤ maxElements)
    (hbody : Stmt.AllRoundTrip st body) : Stmt.RoundTrips st (.block pos body) := by
  obtain ⟨ns, ds, hns, hparts, halike⟩ := hbody
  have hcount : ns.length = body.length := hparts.length_eq.trans halike.length_eq.symm
  refine ⟨.fields StmtKind.block.name pos [] [] [] .absent ns, .block pos ds, ?_, ?_,
    .block pos halike⟩
  · rw [Stmt.node, hns]
    rfl
  · refine .fields StmtKind.block.legible_name legible_nil legible_nil legible_noParams trivial
      (hcount ▸ hlength) (Node.allLegible hparts) ?_
    unfold Node.stmt
    simp only [StmtKind.ofName?_name, Node.stmts_canonical hparts]
    rfl

/-- A declaration is read again if its value is. -/
theorem declare (pos : Position) (hname : Named name) (h : Expr.RoundTrips st value) :
    Stmt.RoundTrips st (.declare pos name value) := by
  obtain ⟨n, d, hn, hcarries, halike⟩ := h
  refine ⟨.fields StmtKind.declare.name pos name [] [] .absent [n], .declare pos name d, ?_, ?_,
    .declare pos name halike⟩
  · rw [Stmt.node, hn]
    rfl
  · refine .fields StmtKind.declare.legible_name hname.2 legible_nil legible_noParams trivial
      (show 1 ≤ maxElements by decide) ⟨hcarries.legible, trivial⟩ ?_
    unfold Node.stmt
    simp only [StmtKind.ofName?_name, hname.unlessNamed, Node.canonicalAll,
      Node.firstOperand_canonical hcarries]
    rfl

/-- An assignment is read again if its value is. -/
theorem assign (pos : Position) (hname : Named name) (h : Expr.RoundTrips st value) :
    Stmt.RoundTrips st (.assign pos name value) := by
  obtain ⟨n, d, hn, hcarries, halike⟩ := h
  refine ⟨.fields StmtKind.assign.name pos name [] [] .absent [n], .assign pos name d, ?_, ?_,
    .assign pos name halike⟩
  · rw [Stmt.node, hn]
    rfl
  · refine .fields StmtKind.assign.legible_name hname.2 legible_nil legible_noParams trivial
      (show 1 ≤ maxElements by decide) ⟨hcarries.legible, trivial⟩ ?_
    unfold Node.stmt
    simp only [StmtKind.ofName?_name, hname.unlessNamed, Node.canonicalAll,
      Node.firstOperand_canonical hcarries]
    rfl

/-- An assignment to an element is read again if its parts are. -/
theorem assignElement (pos : Position) (hname : Named name) (hrow : Expr.RoundTrips st row)
    (hcol : Expr.RoundTrips st col) (hvalue : Expr.RoundTrips st value) :
    Stmt.RoundTrips st (.assignElement pos name row col value) := by
  obtain ⟨r, r', hr, hrc, hralike⟩ := hrow
  obtain ⟨c, c', hc, hcc, hcalike⟩ := hcol
  obtain ⟨v, v', hv, hvc, hvalike⟩ := hvalue
  have hparts : List.Forall₂ (Node.Carries Node.expr) [r, c, v] [r', c', v'] :=
    .cons hrc (.cons hcc (.cons hvc .nil))
  refine ⟨.fields StmtKind.assignElement.name pos name [] [] .absent [r, c, v],
    .assignElement pos name r' c' v', ?_, ?_, .assignElement pos name hralike hcalike hvalike⟩
  · rw [Stmt.node, hr, hc, hv]
    rfl
  · refine .fields StmtKind.assignElement.legible_name hname.2 legible_nil legible_noParams
      trivial (show 3 ≤ maxElements by decide) (Node.allLegible hparts) ?_
    unfold Node.stmt
    simp only [StmtKind.ofName?_name, hname.unlessNamed,
      Node.operands_canonical hparts _ _ 0 3 rfl]
    rfl

/-- A branch without a second statement has two parts. -/
theorem branchOnly (pos : Position) (hcond : Expr.RoundTrips st cond)
    (hyes : Stmt.RoundTrips st yes) : Stmt.RoundTrips st (.branch pos cond yes .absent) := by
  obtain ⟨c, c', hc, hcc, hcalike⟩ := hcond
  obtain ⟨y, y', hy, hyc, hyalike⟩ := hyes
  refine ⟨.fields StmtKind.branch.name pos [] [] [] .absent [c, y], .branch pos c' y' .absent, ?_,
    ?_, .branch pos hcalike hyalike .absent⟩
  · rw [Stmt.node, hc, hy]
    rfl
  · refine .fields StmtKind.branch.legible_name legible_nil legible_nil legible_noParams trivial
      (show 2 ≤ maxElements by decide) ⟨hcc.legible, hyc.legible, trivial⟩ ?_
    unfold Node.stmt
    simp only [StmtKind.ofName?_name, Node.canonicalAll, Node.firstOperand_canonical hcc,
      Node.bodyAt_second hyc]
    rfl

/-- A branch is read again if its parts are. -/
theorem branch (pos : Position) {no : Stmt Cell} (hcond : Expr.RoundTrips st cond)
    (hyes : Stmt.RoundTrips st yes) (hno : Stmt.RoundTrips st no) :
    Stmt.RoundTrips st (.branch pos cond yes no) := by
  obtain ⟨c, c', hc, hcc, hcalike⟩ := hcond
  obtain ⟨y, y', hy, hyc, hyalike⟩ := hyes
  obtain ⟨n, n', hn, hnc, hnalike⟩ := hno
  have hlast : Node.stmtAt 2 [c.canonical, y.canonical, n.canonical] = .ok n' := hnc.reads
  refine ⟨.fields StmtKind.branch.name pos [] [] [] .absent [c, y, n], .branch pos c' y' n', ?_,
    ?_, .branch pos hcalike hyalike hnalike⟩
  · rw [Stmt.node, hc, hy, hn]
    simp only [bind, Except.bind, hnc.present]
    rfl
  · refine .fields StmtKind.branch.legible_name legible_nil legible_nil legible_noParams trivial
      (show 3 ≤ maxElements by decide) ⟨hcc.legible, hyc.legible, hnc.legible, trivial⟩ ?_
    unfold Node.stmt
    simp only [StmtKind.ofName?_name, Node.canonicalAll, Node.firstOperand_canonical hcc,
      Node.bodyAt_second hyc, hlast]
    rfl

/-- A loop is read again if its parts are. -/
theorem whileLoop (pos : Position) (hcond : Expr.RoundTrips st cond)
    (hbody : Stmt.RoundTrips st body) : Stmt.RoundTrips st (.whileLoop pos cond body) := by
  obtain ⟨c, c', hc, hcc, hcalike⟩ := hcond
  obtain ⟨b, b', hb, hbc, hbalike⟩ := hbody
  refine ⟨.fields StmtKind.whileLoop.name pos [] [] [] .absent [c, b], .whileLoop pos c' b', ?_, ?_,
    .whileLoop pos hcalike hbalike⟩
  · rw [Stmt.node, hc, hb]
    rfl
  · refine .fields StmtKind.whileLoop.legible_name legible_nil legible_nil legible_noParams trivial
      (show 2 ≤ maxElements by decide) ⟨hcc.legible, hbc.legible, trivial⟩ ?_
    unfold Node.stmt
    simp only [StmtKind.ofName?_name, Node.canonicalAll, Node.firstOperand_canonical hcc,
      Node.bodyAt_second hbc]
    rfl

/-- A counting loop is read again if its parts are. -/
theorem countLoop (pos : Position) {index : Bytes} (hindex : Legible index) {count : Expr Cell}
    (hcount : Expr.RoundTrips st count) (hbody : Stmt.RoundTrips st body) :
    Stmt.RoundTrips st (.countLoop pos index count body) := by
  obtain ⟨c, c', hc, hcc, hcalike⟩ := hcount
  obtain ⟨b, b', hb, hbc, hbalike⟩ := hbody
  refine ⟨.fields StmtKind.countLoop.name pos index [] [] .absent [c, b],
    .countLoop pos index c' b', ?_, ?_, .countLoop pos index hcalike hbalike⟩
  · rw [Stmt.node, hc, hb]
    rfl
  · refine .fields StmtKind.countLoop.legible_name hindex legible_nil legible_noParams trivial
      (show 2 ≤ maxElements by decide) ⟨hcc.legible, hbc.legible, trivial⟩ ?_
    unfold Node.stmt
    simp only [StmtKind.ofName?_name, Node.canonicalAll, Node.firstOperand_canonical hcc,
      Node.bodyAt_second hbc]
    rfl

/-- A `leave` is read again. -/
theorem leave (pos : Position) : Stmt.RoundTrips st (.leave pos) := by
  refine ⟨.fields StmtKind.leave.name pos [] [] [] .absent [], .leave pos, rfl, ?_, .leave pos⟩
  refine .fields StmtKind.leave.legible_name legible_nil legible_nil legible_noParams trivial
    (by decide) trivial ?_
  unfold Node.stmt
  simp only [StmtKind.ofName?_name]
  rfl

/-- A return without a value is read again. -/
theorem giveBackNothing (pos : Position) : Stmt.RoundTrips st (.giveBack pos .absent) := by
  refine ⟨.fields StmtKind.giveBack.name pos [] [] [] .absent [], .giveBack pos .absent, rfl, ?_,
    .giveBack pos .absent⟩
  refine .fields StmtKind.giveBack.legible_name legible_nil legible_nil legible_noParams trivial
    (by decide) trivial ?_
  unfold Node.stmt
  simp only [StmtKind.ofName?_name]
  rfl

/-- A return is read again if its value is. -/
theorem giveBack (pos : Position) (h : Expr.RoundTrips st value) :
    Stmt.RoundTrips st (.giveBack pos value) := by
  obtain ⟨n, d, hn, hcarries, halike⟩ := h
  refine ⟨.fields StmtKind.giveBack.name pos [] [] [] .absent [n], .giveBack pos d, ?_, ?_,
    .giveBack pos halike⟩
  · rw [Stmt.node, hn]
    simp only [bind, Except.bind, hcarries.present]
    rfl
  · refine .fields StmtKind.giveBack.legible_name legible_nil legible_nil legible_noParams trivial
      (show 1 ≤ maxElements by decide) ⟨hcarries.legible, trivial⟩ ?_
    unfold Node.stmt
    simp only [StmtKind.ofName?_name, Node.canonicalAll, hcarries.reads]
    rfl

/-- A function is read again if its body is. -/
theorem define (pos : Position) (hname : Named name)
    (hparams : params.length ≤ maxElements ∧ ∀ p ∈ params, Legible p)
    (hbody : Stmt.RoundTrips st body) : Stmt.RoundTrips st (.define pos name params body) := by
  obtain ⟨b, b', hb, hbc, hbalike⟩ := hbody
  refine ⟨.fields StmtKind.define.name pos name [] params .absent [b], .define pos name params b',
    ?_, ?_, .define pos name params hbalike⟩
  · rw [Stmt.node, hb]
    rfl
  · refine .fields StmtKind.define.legible_name hname.2 legible_nil hparams trivial
      (show 1 ≤ maxElements by decide) ⟨hbc.legible, trivial⟩ ?_
    unfold Node.stmt
    simp only [StmtKind.ofName?_name, hname.unlessNamed, Node.canonicalAll,
      Node.bodyAt_canonical hbc]
    rfl

/-- A call is read again as a statement if its arguments are. -/
theorem perform (pos : Position) (hname : Named name) (hlength : args.length ≤ maxElements)
    (hargs : Expr.AllRoundTrip st args) : Stmt.RoundTrips st (.perform pos name args) := by
  obtain ⟨ns, ds, hns, hparts, halike⟩ := hargs
  have hcount : ns.length = args.length := hparts.length_eq.trans halike.length_eq.symm
  refine ⟨.fields StmtKind.perform.name pos name [] [] .absent ns, .perform pos name ds, ?_, ?_,
    .perform pos name halike⟩
  · rw [Stmt.node, hns]
    rfl
  · refine .fields StmtKind.perform.legible_name hname.2 legible_nil legible_noParams trivial
      (hcount ▸ hlength) (Node.allLegible hparts) ?_
    unfold Node.stmt
    simp only [StmtKind.ofName?_name, hname.unlessNamed,
      Node.operands_canonical hparts _ _ 0 _ (Node.length_canonicalAll ns).symm]
    rfl

end Stmt.RoundTrips

mutual

/-- A complete statement is written and read back. -/
theorem Stmt.Complete.roundTrips : (s : Stmt Cell) → s.Complete st → Stmt.RoundTrips st s
  | .absent, h => h.elim
  | .block pos body, ⟨hlength, hbody⟩ => .block pos hlength (Stmt.AllComplete.roundTrips body hbody)
  | .declare pos _ value, ⟨hname, hvalue⟩ =>
    .declare pos hname (Expr.Complete.roundTrips value hvalue)
  | .assign pos _ value, ⟨hname, hvalue⟩ =>
    .assign pos hname (Expr.Complete.roundTrips value hvalue)
  | .assignElement pos _ row col value, ⟨hname, hrow, hcol, hvalue⟩ =>
    .assignElement pos hname (Expr.Complete.roundTrips row hrow) (Expr.Complete.roundTrips col hcol)
      (Expr.Complete.roundTrips value hvalue)
  | .branch pos cond yes no, ⟨hcond, hyes, hno⟩ => by
    have hc := Expr.Complete.roundTrips cond hcond
    have hy := Stmt.Complete.roundTrips yes hyes
    rcases hno with rfl | hno
    · exact .branchOnly pos hc hy
    · exact .branch pos hc hy (Stmt.Complete.roundTrips no hno)
  | .whileLoop pos cond body, ⟨hcond, hbody⟩ =>
    .whileLoop pos (Expr.Complete.roundTrips cond hcond) (Stmt.Complete.roundTrips body hbody)
  | .countLoop pos _ count body, ⟨hindex, hcount, hbody⟩ =>
    .countLoop pos hindex (Expr.Complete.roundTrips count hcount)
      (Stmt.Complete.roundTrips body hbody)
  | .leave pos, _ => .leave pos
  | .giveBack pos value, h => by
    rcases h with rfl | h
    · exact .giveBackNothing pos
    · exact .giveBack pos (Expr.Complete.roundTrips value h)
  | .define pos _ _ body, ⟨hname, hparams, hbody⟩ =>
    .define pos hname hparams (Stmt.Complete.roundTrips body hbody)
  | .perform pos _ args, ⟨hname, hlength, hargs⟩ =>
    .perform pos hname hlength (Expr.AllComplete.roundTrips args hargs)

/-- Complete statements are written and read back. -/
theorem Stmt.AllComplete.roundTrips :
    (ss : List (Stmt Cell)) → Stmt.AllComplete st ss → Stmt.AllRoundTrip st ss
  | [], _ => ⟨[], [], rfl, .nil, .nil⟩
  | s :: ss, ⟨hs, hss⟩ => by
    obtain ⟨n, d, hn, hcarries, halike⟩ := Stmt.Complete.roundTrips s hs
    obtain ⟨ns, ds, hns, hall, hrest⟩ := Stmt.AllComplete.roundTrips ss hss
    refine ⟨n :: ns, d :: ds, ?_, .cons hcarries hall, .cons halike hrest⟩
    rw [Stmt.nodes, hn, hns]
    rfl

end

/-! ## Trees -/

/-- The statements of a complete program are all there. -/
theorem Stmt.AllComplete.programNodes {ss : List (Stmt Cell)} (h : Stmt.AllComplete st ss) :
    Stmt.programNodes st ss = Stmt.nodes st ss := by
  induction ss with
  | nil => rfl
  | cons s ss ih =>
    have hpresent : s.isAbsent = false := by
      cases s with
      | absent => exact h.1.elim
      | _ => rfl
    rw [Stmt.programNodes, hpresent, ih h.2, Stmt.nodes]
    rfl

/-- A complete tree has a node. Behind any code of nodes that gives legible ones back as canonical
ones, if they are fit for it, the node stands for a tree that is alike. -/
theorem Tree.ofNode_decoded {encode : Node → Bytes} {decode : Bytes → Except WireError Node}
    {fits : Node → Prop}
    (hcode : ∀ n : Node, n.Legible → n.isAbsent = false → fits n →
      decode (encode n) = .ok n.canonical) {t : Tree Cell} (h : t.Complete st) :
    ∃ node, t.node st = .ok node ∧ (fits node →
      ∃ n t', decode (encode node) = .ok n ∧ Tree.ofNode n = .ok t' ∧
        t.Alike (Cell.ReadAs st) t') := by
  obtain ⟨hlength, hbody⟩ := h
  obtain ⟨ns, ds, hns, hparts, halike⟩ := Stmt.AllComplete.roundTrips t.body hbody
  -- There is a node for each statement, so their number fits as well.
  have hcount : ns.length = t.body.length := hparts.length_eq.trans halike.length_eq.symm
  have hnode : t.node st = .ok (.fields programKind t.pos [] [] [] .absent ns) := by
    unfold Tree.node
    rw [hbody.programNodes, hns]
    rfl
  have hlegible : (Node.fields programKind t.pos [] [] [] .absent ns).Legible :=
    ⟨by decide, legible_nil, legible_nil, legible_noParams, trivial,
      hcount ▸ hlength, Node.allLegible hparts⟩
  refine ⟨_, hnode, fun hfits => ⟨_, ⟨t.pos, ds⟩, hcode _ hlegible rfl hfits, ?_, rfl, halike⟩⟩
  rw [Node.canonical, Tree.ofNode]
  simp only [Node.stmts_canonical hparts]
  rfl

/-- A complete tree can be written. If its node has no more levels than reading allows, what is
read from its bytes is equal to it node for node, with the same positions, names, parameters and
operators and with the same parts left out; its literals are equal up to the sign of zeros and the
bits of NaNs, and arrays cell by cell. -/
theorem Tree.read_written {t : Tree Cell} (h : t.Complete st) :
    ∃ node, t.node st = .ok node ∧ t.write st = .ok node.write ∧
      (node.nesting ≤ Cbor.maxNesting →
        ∃ t', Tree.read node.write = .ok t' ∧ t.Alike (Cell.ReadAs st) t') := by
  obtain ⟨node, hnode, hback⟩ := Tree.ofNode_decoded (fun _ => Node.read_write) h
  refine ⟨node, hnode, ?_, fun hnesting => ?_⟩
  · unfold Tree.write
    rw [hnode]
    rfl
  · obtain ⟨n, t', hread, htree, halike⟩ := hback hnesting
    refine ⟨t', ?_, halike⟩
    unfold Tree.read
    rw [hread]
    exact htree

/-- An array that holds a negative zero and a NaN, and one that holds it. -/
def Store.assorted : Store :=
  ⟨#[⟨1, 2, #[some (.real ⟨0x8000000000000000⟩), some (.real ⟨0x7FF8000000000001⟩)], rfl⟩,
    ⟨2, 1, #[some (.array 0), some (.string "ß")], rfl⟩]⟩

/-- A tree with parts left out where they may be, and with the arrays of `Store.assorted`. -/
def Tree.assorted : Tree Cell where
  pos := ⟨1, 1⟩
  body := [
    .define ⟨1, 1⟩ "größe" ["a", ""] (.block ⟨1, 20⟩ [.giveBack ⟨2, 3⟩ .absent]),
    .declare ⟨3, 1⟩ "x" (.literal ⟨3, 9⟩ (some (.array 1))),
    .countLoop ⟨4, 1⟩ [] (.literal ⟨4, 8⟩ (some (.integer 3))) (.block ⟨0, 0⟩ [.leave ⟨5, 3⟩]),
    .branch ⟨6, 1⟩ (.binary ⟨6, 6⟩ .lt (.load ⟨6, 4⟩ "x") (.negation ⟨6, 8⟩ (.load ⟨6, 9⟩ "y")))
      (.perform ⟨7, 3⟩ "print" [.load ⟨7, 9⟩ "x"])
      (.assign ⟨8, 3⟩ "x" (.newArray ⟨8, 8⟩ (.load ⟨8, 10⟩ "m") (.load ⟨8, 13⟩ "n")
        (some (.boolean false)))),
    .branch ⟨9, 1⟩ (.load ⟨9, 4⟩ "x") (.giveBack ⟨10, 3⟩ (.call ⟨10, 10⟩ "größe" [])) .absent]

/-- A tree of all kinds of nodes is read again. -/
theorem Tree.read_written_assorted : Tree.assorted.Complete .assorted ∧
    ∃ file t', Tree.assorted.write .assorted = .ok file ∧ Tree.read file = .ok t' ∧
      Tree.assorted.Alike (Cell.ReadAs .assorted) t' := by
  have hcells₀ {v : Value} (hv : some v ∈ (Store.assorted.grid 0).cells.toList) :
      v = .real ⟨0x8000000000000000⟩ ∨ v = .real ⟨0x7FF8000000000001⟩ := by
    simpa [Store.assorted, Store.grid] using hv
  have hcells₁ {v : Value} (hv : some v ∈ (Store.assorted.grid 1).cells.toList) :
      v = .array 0 ∨ v = .string "ß" := by
    simpa [Store.assorted, Store.grid] using hv
  have hinner : (Value.array 0).Whole .assorted := by
    refine .array (by decide) (by decide) fun v hv => ?_
    rcases hcells₀ hv with rfl | rfl <;> exact .real _
  have houter : (Value.array 1).Whole .assorted := by
    refine .array (by decide) (by decide) fun v hv => ?_
    rcases hcells₁ hv with rfl | rfl
    · exact hinner
    · exact .string _
  have hinnerTexts : ∀ s, ¬ (Value.array 0).Holds .assorted s := by
    rintro s ⟨⟩
    rename_i hmem hholds
    rcases hcells₀ hmem with rfl | rfl <;> cases hholds
  have htexts : ∀ s, (Value.array 1).Holds .assorted s → Legible s := by
    rintro s ⟨⟩
    rename_i hmem hholds
    rcases hcells₁ hmem with rfl | rfl
    · exact absurd hholds (hinnerTexts s)
    · cases hholds
      decide
  have harray : Cell.Portable .assorted (some (.array 1)) := ⟨_, rfl, houter, htexts⟩
  have hthree : Cell.Portable .assorted (some (.integer 3)) := ⟨_, rfl, .integer 3, nofun⟩
  have hfalse : Cell.Portable .assorted (some (.boolean false)) := ⟨_, rfl, .boolean false, nofun⟩
  have hcomplete : Tree.assorted.Complete .assorted := by
    have hx : Named "x" := by decide
    have hy : Named "y" := by decide
    have hm : Named "m" := by decide
    have hn : Named "n" := by decide
    exact ⟨by decide, ⟨by decide, by decide, by decide, .inl rfl, trivial⟩, ⟨by decide, harray⟩,
      ⟨by decide, hthree, by decide, trivial, trivial⟩,
      ⟨⟨by decide, hx, hy⟩, ⟨by decide, by decide, hx, trivial⟩,
        .inr ⟨by decide, hm, hn, hfalse⟩⟩,
      ⟨hx, .inr ⟨by decide, by decide, trivial⟩, .inl rfl⟩, trivial⟩
  obtain ⟨node, hnode, hwrite, hread⟩ := Tree.read_written hcomplete
  have hnesting : (Tree.assorted.node .assorted).toOption.all
      (fun n => decide (n.nesting ≤ Cbor.maxNesting)) = true := by decide +kernel
  rw [hnode] at hnesting
  obtain ⟨t', ht', halike⟩ := hread (of_decide_eq_true hnesting)
  exact ⟨hcomplete, node.write, t', hwrite, ht', halike⟩

end StackScript
