import StackScript.Proofs.Tree.Conditions
import StackScript.Proofs.Value.Renaming

/-!
# Trees up to names and positions

Two trees correspond if they differ only in positions and in the names of variables, which are
renamed one to one within each function. A function may rename in its own way, whatever the
functions around it do, since it sees none of their variables. Names of functions are the same in
both trees, and literals are equal up to the keys of arrays.
-/

namespace StackScript

/-- A renaming of the variables of a function, one to one. The empty name hides the index of a loop,
so no other becomes empty; names that are not plain are kept for such an index. -/
structure NameMap where
  /-- The first name becomes the second. -/
  Renames : Bytes → Bytes → Prop
  /-- A name becomes one name only. -/
  functional : ∀ {x y y'}, Renames x y → Renames x y' → y = y'
  /-- Only one name becomes a name. -/
  injective : ∀ {x x' y}, Renames x y → Renames x' y → x = x'
  /-- The empty name stays. -/
  empty : ∀ {x y}, Renames x y → (x = [] ↔ y = [])
  /-- Both names are plain. -/
  plain : ∀ {x y}, Renames x y → isPlainName x = true ∧ isPlainName y = true

/-- The renaming that a table of names gives. -/
def NameMap.ofTable (table : List (Bytes × Bytes))
    (h : ∀ p ∈ table, (p.1 = [] ↔ p.2 = []) ∧ isPlainName p.1 = true ∧ isPlainName p.2 = true ∧
      ∀ q ∈ table, p.1 = q.1 ↔ p.2 = q.2) : NameMap where
  Renames x y := (x, y) ∈ table
  functional := fun hp hq => ((h _ hp).2.2.2 _ hq).mp rfl
  injective := fun hp hq => ((h _ hp).2.2.2 _ hq).mpr rfl
  empty := fun hp => (h _ hp).1
  plain := fun hp => ⟨(h _ hp).2.1, (h _ hp).2.2.1⟩

instance (table : List (Bytes × Bytes)) (h) (x y : Bytes) :
    Decidable ((NameMap.ofTable table h).Renames x y) :=
  inferInstanceAs (Decidable ((x, y) ∈ table))

variable (ρ : Nat → Nat → Prop)

mutual

/-- Expressions that differ only in positions and names. -/
inductive Expr.Renamed (σ : NameMap) : Expr Cell → Expr Cell → Prop
  | absent : Expr.Renamed σ .absent .absent
  | literal {pos pos' : Position} {v v' : Cell} (hv : v.Renamed ρ v') :
    Expr.Renamed σ (.literal pos v) (.literal pos' v')
  | load {pos pos' : Position} {x x' : Bytes} (hx : σ.Renames x x') :
    Expr.Renamed σ (.load pos x) (.load pos' x')
  | element {pos pos' : Position} {x x' : Bytes} {row row' col col' : Expr Cell}
    (hx : σ.Renames x x') (hrow : Expr.Renamed σ row row') (hcol : Expr.Renamed σ col col') :
    Expr.Renamed σ (.element pos x row col) (.element pos' x' row' col')
  | newArray {pos pos' : Position} {rows rows' cols cols' : Expr Cell} {fill fill' : Cell}
    (hrows : Expr.Renamed σ rows rows') (hcols : Expr.Renamed σ cols cols')
    (hfill : fill.Renamed ρ fill') :
    Expr.Renamed σ (.newArray pos rows cols fill) (.newArray pos' rows' cols' fill')
  | call {pos pos' : Position} {name : Bytes} {args args' : List (Expr Cell)}
    (hargs : Expr.AllRenamed σ args args') :
    Expr.Renamed σ (.call pos name args) (.call pos' name args')
  | binary {pos pos' : Position} {op : Operator} {left left' right right' : Expr Cell}
    (hleft : Expr.Renamed σ left left') (hright : Expr.Renamed σ right right') :
    Expr.Renamed σ (.binary pos op left right) (.binary pos' op left' right')
  | negation {pos pos' : Position} {operand operand' : Expr Cell}
    (h : Expr.Renamed σ operand operand') :
    Expr.Renamed σ (.negation pos operand) (.negation pos' operand')

/-- As many expressions, which correspond one by one. -/
inductive Expr.AllRenamed (σ : NameMap) : List (Expr Cell) → List (Expr Cell) → Prop
  | nil : Expr.AllRenamed σ [] []
  | cons {e e' : Expr Cell} {es es' : List (Expr Cell)} (he : Expr.Renamed σ e e')
    (hes : Expr.AllRenamed σ es es') : Expr.AllRenamed σ (e :: es) (e' :: es')

end

mutual

/-- Statements that differ only in positions and names. The index of a counting loop may have no
name, and then it has none on either side. -/
inductive Stmt.Renamed : NameMap → Stmt Cell → Stmt Cell → Prop
  | absent {σ : NameMap} : Stmt.Renamed σ .absent .absent
  | block {σ : NameMap} {pos pos' : Position} {body body' : List (Stmt Cell)}
    (h : Stmt.AllRenamed σ body body') : Stmt.Renamed σ (.block pos body) (.block pos' body')
  | declare {σ : NameMap} {pos pos' : Position} {x x' : Bytes} {value value' : Expr Cell}
    (hx : σ.Renames x x') (hvalue : value.Renamed ρ σ value') :
    Stmt.Renamed σ (.declare pos x value) (.declare pos' x' value')
  | assign {σ : NameMap} {pos pos' : Position} {x x' : Bytes} {value value' : Expr Cell}
    (hx : σ.Renames x x') (hvalue : value.Renamed ρ σ value') :
    Stmt.Renamed σ (.assign pos x value) (.assign pos' x' value')
  | assignElement {σ : NameMap} {pos pos' : Position} {x x' : Bytes}
    {row row' col col' value value' : Expr Cell} (hx : σ.Renames x x')
    (hrow : row.Renamed ρ σ row') (hcol : col.Renamed ρ σ col')
    (hvalue : value.Renamed ρ σ value') :
    Stmt.Renamed σ (.assignElement pos x row col value)
      (.assignElement pos' x' row' col' value')
  | branch {σ : NameMap} {pos pos' : Position} {cond cond' : Expr Cell}
    {yes yes' no no' : Stmt Cell} (hcond : cond.Renamed ρ σ cond') (hyes : Stmt.Renamed σ yes yes')
    (hno : Stmt.Renamed σ no no') :
    Stmt.Renamed σ (.branch pos cond yes no) (.branch pos' cond' yes' no')
  | whileLoop {σ : NameMap} {pos pos' : Position} {cond cond' : Expr Cell}
    {body body' : Stmt Cell} (hcond : cond.Renamed ρ σ cond') (hbody : Stmt.Renamed σ body body') :
    Stmt.Renamed σ (.whileLoop pos cond body) (.whileLoop pos' cond' body')
  | countLoop {σ : NameMap} {pos pos' : Position} {index index' : Bytes}
    {count count' : Expr Cell} {body body' : Stmt Cell}
    (hindex : index = [] ∧ index' = [] ∨ σ.Renames index index')
    (hcount : count.Renamed ρ σ count') (hbody : Stmt.Renamed σ body body') :
    Stmt.Renamed σ (.countLoop pos index count body) (.countLoop pos' index' count' body')
  | leave {σ : NameMap} {pos pos' : Position} : Stmt.Renamed σ (.leave pos) (.leave pos')
  | giveBack {σ : NameMap} {pos pos' : Position} {value value' : Expr Cell}
    (hvalue : value.Renamed ρ σ value') :
    Stmt.Renamed σ (.giveBack pos value) (.giveBack pos' value')
  | define {σ τ : NameMap} {pos pos' : Position} {name : Bytes} {params params' : List Bytes}
    {body body' : Stmt Cell} (hparams : List.Forall₂ τ.Renames params params')
    (hbody : Stmt.Renamed τ body body') :
    Stmt.Renamed σ (.define pos name params body) (.define pos' name params' body')
  | perform {σ : NameMap} {pos pos' : Position} {name : Bytes} {args args' : List (Expr Cell)}
    (hargs : Expr.AllRenamed ρ σ args args') :
    Stmt.Renamed σ (.perform pos name args) (.perform pos' name args')

/-- As many statements, which correspond one by one. -/
inductive Stmt.AllRenamed : NameMap → List (Stmt Cell) → List (Stmt Cell) → Prop
  | nil {σ : NameMap} : Stmt.AllRenamed σ [] []
  | cons {σ : NameMap} {s s' : Stmt Cell} {ss ss' : List (Stmt Cell)} (hs : Stmt.Renamed σ s s')
    (hss : Stmt.AllRenamed σ ss ss') : Stmt.AllRenamed σ (s :: ss) (s' :: ss')

end

/-- Trees that differ only in positions and names. -/
def Tree.Renamed (t t' : Tree Cell) : Prop := ∃ σ, Stmt.AllRenamed ρ σ t.body t'.body

variable {ρ} {σ : NameMap}

/-- There are as many renamed arguments. -/
theorem Expr.AllRenamed.length_eq {es es' : List (Expr Cell)} (h : Expr.AllRenamed ρ σ es es') :
    es'.length = es.length := by
  induction es generalizing es' with
  | nil =>
    cases h
    rfl
  | cons e es ih =>
    cases h with
    | cons _ hes => rw [List.length_cons, List.length_cons, ih hes]

/-- A renamed expression is absent alike. -/
theorem Expr.Renamed.isAbsent_eq {e e' : Expr Cell} (h : e.Renamed ρ σ e') :
    e'.isAbsent = e.isAbsent := by
  cases h <;> rfl

/-- A renamed statement is absent alike. -/
theorem Stmt.Renamed.isAbsent_eq {s s' : Stmt Cell} (h : s.Renamed ρ σ s') :
    s'.isAbsent = s.isAbsent := by
  cases h <;> rfl

end StackScript
