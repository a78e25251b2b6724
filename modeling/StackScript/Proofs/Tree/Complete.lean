import StackScript.Proofs.Number.Zeros
import StackScript.Proofs.Tree.Reading

/-!
# Complete trees, and trees that are alike

A tree is complete if nothing that its reader asks for is missing: operands, names where a kind
needs one, literals that come to an end, text that is UTF-8, and lists that are not too long. Two
trees are alike if they are equal node for node, up to a relation between their literals. The
literals of a tree that was written and read are related by `Cell.ReadAs`: a zero may change its
sign, and a NaN its bits.
-/

namespace StackScript

open Cbor (maxElements)

/-! ## Complete trees -/

/-- A text occurs in a value, itself or in a cell. -/
inductive Value.Holds (st : Store) : Value → Bytes → Prop
  | string (s : Bytes) : Holds st (.string s) s
  | cell {key : Nat} {v : Value} {s : Bytes} (mem : some v ∈ (st.grid key).cells.toList)
      (holds : Holds st v s) : Holds st (.array key) s

/-- A literal that can be handed over: a whole value, all of whose texts are legible. -/
def Cell.Portable (st : Store) (c : Cell) : Prop :=
  ∃ v, c = some v ∧ v.Whole st ∧ ∀ s, v.Holds st s → Legible s

/-- A name that is there. -/
def Named (name : Bytes) : Prop := name ≠ [] ∧ Legible name

instance (name : Bytes) : Decidable (Named name) := inferInstanceAs (Decidable (_ ∧ _))

mutual

/-- Nothing is missing in an expression. -/
def Expr.Complete (st : Store) : Expr Cell → Prop
  | .absent => False
  | .literal _ c => c.Portable st
  | .load _ name => Named name
  | .element _ name row col => Named name ∧ row.Complete st ∧ col.Complete st
  | .newArray _ rows cols fill => rows.Complete st ∧ cols.Complete st ∧ fill.Portable st
  | .call _ name args => Named name ∧ args.length ≤ maxElements ∧ Expr.AllComplete st args
  | .binary _ op left right => op ∈ Operator.all ∧ left.Complete st ∧ right.Complete st
  | .negation _ operand => operand.Complete st

/-- Nothing is missing in expressions. -/
def Expr.AllComplete (st : Store) : List (Expr Cell) → Prop
  | [] => True
  | e :: es => e.Complete st ∧ Expr.AllComplete st es

end

mutual

/-- Nothing is missing in a statement. The second branch, the value given back and the name of a
count may be left out. -/
def Stmt.Complete (st : Store) : Stmt Cell → Prop
  | .absent => False
  | .block _ body => body.length ≤ maxElements ∧ Stmt.AllComplete st body
  | .declare _ name value => Named name ∧ value.Complete st
  | .assign _ name value => Named name ∧ value.Complete st
  | .assignElement _ name row col value =>
    Named name ∧ row.Complete st ∧ col.Complete st ∧ value.Complete st
  | .branch _ cond yes no => cond.Complete st ∧ yes.Complete st ∧ (no = .absent ∨ no.Complete st)
  | .whileLoop _ cond body => cond.Complete st ∧ body.Complete st
  | .countLoop _ index count body => Legible index ∧ count.Complete st ∧ body.Complete st
  | .leave _ => True
  | .giveBack _ value => value = .absent ∨ value.Complete st
  | .define _ name params body =>
    Named name ∧ (params.length ≤ maxElements ∧ ∀ p ∈ params, Legible p) ∧ body.Complete st
  | .perform _ name args => Named name ∧ args.length ≤ maxElements ∧ Expr.AllComplete st args

/-- Nothing is missing in statements. -/
def Stmt.AllComplete (st : Store) : List (Stmt Cell) → Prop
  | [] => True
  | s :: ss => s.Complete st ∧ Stmt.AllComplete st ss

end

/-- Nothing is missing in a tree. -/
def Tree.Complete (st : Store) (t : Tree Cell) : Prop :=
  t.body.length ≤ maxElements ∧ Stmt.AllComplete st t.body

/-! ## Trees that are alike -/

/-- Numbers that differ at most in the sign of a zero or in the bits of a NaN. -/
def Binary64.Alike (x y : Binary64) : Prop :=
  x = y ∨ (x.isZero = true ∧ y.isZero = true) ∨ (x.isNaN = true ∧ y.isNaN = true)

/-- Data that are equal cell by cell, but for the sign of zeros and the bits of NaNs. -/
inductive Datum.Alike : Datum → Datum → Prop
  | integer (n : Int64) : Alike (.integer n) (.integer n)
  | real {x y : Binary64} (h : x.Alike y) : Alike (.real x) (.real y)
  | string (s : Bytes) : Alike (.string s) (.string s)
  | boolean (b : Bool) : Alike (.boolean b) (.boolean b)
  | array (rows cols : Nat) {cells cells' : List Datum} (h : List.Forall₂ Alike cells cells') :
      Alike (.array rows cols cells) (.array rows cols cells')

/-- A literal is read as a datum that is like its own. -/
def Cell.ReadAs (st : Store) (c : Cell) (d : Datum) : Prop :=
  ∃ v e, c = some v ∧ Datum.Describes st e v ∧ e.Alike d

section Alike

variable {ν μ : Type} (R : ν → μ → Prop)

/-- Expressions that are equal but for their literals, which are related. -/
inductive Expr.Alike : Expr ν → Expr μ → Prop
  | absent : Alike .absent .absent
  | literal (pos : Position) {c : ν} {d : μ} (h : R c d) : Alike (.literal pos c) (.literal pos d)
  | load (pos : Position) (name : Bytes) : Alike (.load pos name) (.load pos name)
  | element (pos : Position) (name : Bytes) {row col : Expr ν} {row' col' : Expr μ}
      (hrow : Alike row row') (hcol : Alike col col') :
      Alike (.element pos name row col) (.element pos name row' col')
  | newArray (pos : Position) {rows cols : Expr ν} {rows' cols' : Expr μ} {c : ν} {d : μ}
      (hrows : Alike rows rows') (hcols : Alike cols cols') (h : R c d) :
      Alike (.newArray pos rows cols c) (.newArray pos rows' cols' d)
  | call (pos : Position) (name : Bytes) {args : List (Expr ν)} {args' : List (Expr μ)}
      (h : List.Forall₂ Alike args args') : Alike (.call pos name args) (.call pos name args')
  | binary (pos : Position) (op : Operator) {left right : Expr ν} {left' right' : Expr μ}
      (hleft : Alike left left') (hright : Alike right right') :
      Alike (.binary pos op left right) (.binary pos op left' right')
  | negation (pos : Position) {e : Expr ν} {e' : Expr μ} (h : Alike e e') :
      Alike (.negation pos e) (.negation pos e')

/-- Statements that are equal but for their literals, which are related. -/
inductive Stmt.Alike : Stmt ν → Stmt μ → Prop
  | absent : Alike .absent .absent
  | block (pos : Position) {body : List (Stmt ν)} {body' : List (Stmt μ)}
      (h : List.Forall₂ Alike body body') : Alike (.block pos body) (.block pos body')
  | declare (pos : Position) (name : Bytes) {e : Expr ν} {e' : Expr μ} (h : e.Alike R e') :
      Alike (.declare pos name e) (.declare pos name e')
  | assign (pos : Position) (name : Bytes) {e : Expr ν} {e' : Expr μ} (h : e.Alike R e') :
      Alike (.assign pos name e) (.assign pos name e')
  | assignElement (pos : Position) (name : Bytes) {row col value : Expr ν}
      {row' col' value' : Expr μ} (hrow : row.Alike R row') (hcol : col.Alike R col')
      (hvalue : value.Alike R value') :
      Alike (.assignElement pos name row col value) (.assignElement pos name row' col' value')
  | branch (pos : Position) {cond : Expr ν} {cond' : Expr μ} {yes no : Stmt ν} {yes' no' : Stmt μ}
      (hcond : cond.Alike R cond') (hyes : Alike yes yes') (hno : Alike no no') :
      Alike (.branch pos cond yes no) (.branch pos cond' yes' no')
  | whileLoop (pos : Position) {cond : Expr ν} {cond' : Expr μ} {body : Stmt ν} {body' : Stmt μ}
      (hcond : cond.Alike R cond') (hbody : Alike body body') :
      Alike (.whileLoop pos cond body) (.whileLoop pos cond' body')
  | countLoop (pos : Position) (index : Bytes) {count : Expr ν} {count' : Expr μ} {body : Stmt ν}
      {body' : Stmt μ} (hcount : count.Alike R count') (hbody : Alike body body') :
      Alike (.countLoop pos index count body) (.countLoop pos index count' body')
  | leave (pos : Position) : Alike (.leave pos) (.leave pos)
  | giveBack (pos : Position) {e : Expr ν} {e' : Expr μ} (h : e.Alike R e') :
      Alike (.giveBack pos e) (.giveBack pos e')
  | define (pos : Position) (name : Bytes) (params : List Bytes) {body : Stmt ν} {body' : Stmt μ}
      (h : Alike body body') : Alike (.define pos name params body) (.define pos name params body')
  | perform (pos : Position) (name : Bytes) {args : List (Expr ν)} {args' : List (Expr μ)}
      (h : List.Forall₂ (Expr.Alike R) args args') :
      Alike (.perform pos name args) (.perform pos name args')

/-- Trees that are equal but for their literals, which are related. -/
def Tree.Alike (t : Tree ν) (t' : Tree μ) : Prop :=
  t.pos = t'.pos ∧ List.Forall₂ (Stmt.Alike R) t.body t'.body

end Alike

/-! ## Literals -/

/-- A number is written as one alike. -/
theorem alike_writtenReal (x : Binary64) : x.Alike (writtenReal x) := by
  unfold writtenReal Cbor.canonicalReal
  split
  · rename_i hzero
    obtain ⟨hfield, hfraction⟩ := Binary64.fields_of_eq_zero hzero
    refine .inr (.inl ⟨?_, by decide⟩)
    simp [Binary64.isZero, hfield, hfraction]
  split
  · exact .inr (.inr ⟨‹_›, by decide⟩)
  · exact .inl rfl

/-- The empty name can be written. -/
theorem legible_nil : Legible [] := by decide

/-- The names of types can be written. -/
theorem LiteralType.legible_name (t : LiteralType) : Legible t.name := by
  cases t <;> decide

/-- A type is read from its name. -/
theorem LiteralType.ofName?_name (t : LiteralType) : LiteralType.ofName? t.name = some t := by
  cases t <;> decide

/-- Each value gives one node. -/
theorem Datum.length_nodeValues (ds : List Datum) :
    (Datum.nodeValues ds).length = ds.length := by
  induction ds with
  | nil => rfl
  | cons d ds ih => rw [Datum.nodeValues, List.length_cons, List.length_cons, ih]

/-- As many values are read as were written. -/
theorem NodeValue.length_canonicalAll (vs : List NodeValue) :
    (NodeValue.canonicalAll vs).length = vs.length := by
  induction vs with
  | nil => rfl
  | cons v vs ih => rw [NodeValue.canonicalAll, List.length_cons, List.length_cons, ih]

/-- An array of an allowed size has few enough rows, columns and cells. -/
theorem Grid.le_of_sizeAllowed {rows cols : Nat} (h : Grid.sizeAllowed rows cols = true) :
    rows ≤ maxCells ∧ cols ≤ maxCells ∧ rows * cols ≤ maxCells := by
  obtain ⟨-, -, hrows, hcols, harea⟩ := Grid.sizeAllowed_iff.mp h
  exact ⟨by omega, by omega, by exact_mod_cast harea⟩

mutual

/-- The literal value of a value's datum is legible if the texts in the value are. -/
theorem Datum.Describes.legible {st : Store} : {d : Datum} → {v : Value} → d.Describes st v →
    d.Shaped → (∀ s, v.Holds st s → StackScript.Legible s) → d.nodeValue.Legible
  | .integer _, _, _, _, _ => ⟨LiteralType.legible_name .integer, legible_nil, by decide, trivial⟩
  | .real _, _, _, _, _ => ⟨LiteralType.legible_name .real, legible_nil, by decide, trivial⟩
  | .string s, v, h, _, htexts => by
    obtain rfl : v = .string s := h
    exact ⟨LiteralType.legible_name .string, htexts s (.string s), by decide, trivial⟩
  | .boolean _, _, _, _, _ => ⟨LiteralType.legible_name .boolean, legible_nil, by decide, trivial⟩
  | .array rows cols cells, v, h, hshaped, htexts => by
    obtain ⟨key, rfl, -, -, hcells⟩ := h
    obtain ⟨hsize, hlength, hall⟩ := hshaped
    refine ⟨LiteralType.legible_name .array, legible_nil, ?_, ?_⟩
    · rw [Datum.length_nodeValues, hlength]
      exact (Grid.le_of_sizeAllowed hsize).2.2
    · exact Datum.DescribesAll.legible hcells hall fun v hv s hs => htexts s (.cell hv hs)

/-- The literal values of the data of cells are legible if the texts in the cells are. -/
theorem Datum.DescribesAll.legible {st : Store} : {ds : List Datum} → {cells : List Cell} →
    Datum.DescribesAll st ds cells → Datum.AllShaped ds →
    (∀ v, some v ∈ cells → ∀ s, v.Holds st s → StackScript.Legible s) →
    NodeValue.AllLegible (Datum.nodeValues ds)
  | [], _, _, _, _ => trivial
  | d :: ds, _, ⟨v, rest, hcells, hd, hds⟩, hshaped, htexts => by
    subst hcells
    exact ⟨hd.legible hshaped.1 (htexts v List.mem_cons_self),
      Datum.DescribesAll.legible hds hshaped.2 fun w hw =>
        htexts w (List.mem_cons_of_mem _ hw)⟩

end

/-- Data for every cell are not padded. -/
theorem padFalse_of_length_eq {n : Nat} {cells : List Datum} (h : cells.length = n) :
    padFalse n cells = cells := by
  unfold padFalse
  rw [h, Nat.sub_self, List.replicate_zero, List.append_nil]

mutual

/-- The literal value of a datum is read as a datum like it. -/
theorem Datum.datum_nodeValue :
    (d : Datum) → d.Shaped → ∃ e, d.nodeValue.canonical.datum = .ok e ∧ d.Alike e
  | .integer n, _ => ⟨.integer n, rfl, .integer n⟩
  | .real x, _ => ⟨.real (writtenReal x), rfl, .real (alike_writtenReal x)⟩
  | .string s, _ => ⟨.string s, rfl, .string s⟩
  | .boolean b, _ => ⟨.boolean b, rfl, .boolean b⟩
  | .array rows cols cells, h => by
    obtain ⟨hsize, hlength, hall⟩ := h
    obtain ⟨es, hdata, halike⟩ := Datum.data_nodeValues cells hall
    obtain ⟨hrows, hcols, -⟩ := Grid.le_of_sizeAllowed hsize
    have hmax : maxCells < 2 ^ 63 := by decide
    have hr : (Int64.ofNat rows).toInt = rows := Int64.toInt_ofNat_of_lt (by omega)
    have hc : (Int64.ofNat cols).toInt = cols := Int64.toInt_ofNat_of_lt (by omega)
    have hcount : (NodeValue.canonicalAll (Datum.nodeValues cells)).length = rows * cols := by
      rw [NodeValue.length_canonicalAll, Datum.length_nodeValues, hlength]
    have hpad : padFalse (rows * cols) es = es :=
      padFalse_of_length_eq (halike.length_eq.symm.trans hlength)
    refine ⟨.array rows cols es, ?_, .array rows cols halike⟩
    rw [Datum.nodeValue, NodeValue.canonical, NodeValue.datum, LiteralType.ofName?_name]
    simp only [hr, hc, hsize, Int.toNat_natCast, hcount, Nat.lt_irrefl, hdata []]
    rw [List.reverse_nil, List.nil_append, hpad]
    rfl

/-- The literal values of data are read as data like them. -/
theorem Datum.data_nodeValues : (ds : List Datum) → Datum.AllShaped ds →
    ∃ es, (∀ acc, NodeValue.data acc (NodeValue.canonicalAll (Datum.nodeValues ds)) =
      .ok (acc.reverse ++ es)) ∧ List.Forall₂ Datum.Alike ds es
  | [], _ => ⟨[], fun acc => by rw [List.append_nil]; rfl, .nil⟩
  | d :: ds, h => by
    obtain ⟨e, he, hfirst⟩ := Datum.datum_nodeValue d h.1
    obtain ⟨es, hes, hrest⟩ := Datum.data_nodeValues ds h.2
    refine ⟨e :: es, fun acc => ?_, .cons hfirst hrest⟩
    rw [Datum.nodeValues, NodeValue.canonicalAll, NodeValue.data, he]
    simp only
    rw [hes]
    simp

end

end StackScript
