import StackScript.Proofs.Value.Data
import StackScript.Tree.File

/-!
# The literals of trees

The literals of a tree in the order in which they are entered into a store. Entering a tree enters
its literals one after the other, and each becomes a value of its own. An array that was read is
shaped: its size is checked, and cells that were left out are filled in.
-/

namespace StackScript

variable {ν : Type}

mutual

/-- The literals of an expression. -/
def Expr.literals : Expr ν → List ν
  | .absent => []
  | .literal _ v => [v]
  | .load _ _ => []
  | .element _ _ row col => row.literals ++ col.literals
  | .newArray _ rows cols fill => rows.literals ++ cols.literals ++ [fill]
  | .call _ _ args => Expr.literalsAll args
  | .binary _ _ left right => left.literals ++ right.literals
  | .negation _ operand => operand.literals

/-- The literals of expressions. -/
def Expr.literalsAll : List (Expr ν) → List ν
  | [] => []
  | e :: es => e.literals ++ Expr.literalsAll es

end

mutual

/-- The literals of a statement. -/
def Stmt.literals : Stmt ν → List ν
  | .absent => []
  | .block _ body => Stmt.literalsAll body
  | .declare _ _ value => value.literals
  | .assign _ _ value => value.literals
  | .assignElement _ _ row col value => row.literals ++ col.literals ++ value.literals
  | .branch _ cond yes no => cond.literals ++ yes.literals ++ no.literals
  | .whileLoop _ cond body => cond.literals ++ body.literals
  | .countLoop _ _ count body => count.literals ++ body.literals
  | .leave _ => []
  | .giveBack _ value => value.literals
  | .define _ _ _ body => body.literals
  | .perform _ _ args => Expr.literalsAll args

/-- The literals of statements. -/
def Stmt.literalsAll : List (Stmt ν) → List ν
  | [] => []
  | s :: ss => s.literals ++ Stmt.literalsAll ss

end

/-- The literals of a tree. -/
def Tree.literals (t : Tree ν) : List ν := Stmt.literalsAll t.body

/-! ## Entering literals into a store -/

/-- Storing the data takes the first store to the second and gives the values in the cells. -/
def Datum.Enter (st : Store) (ds : List Datum) (cells : List Cell) (st' : Store) : Prop :=
  Datum.storeAll #[] st ds = (cells.toArray, st')

namespace Datum.Enter

variable {st st₁ st₂ : Store} {ds es : List Datum} {cs cs' : List Cell}

/-- No values enter a store. -/
theorem nil (st : Store) : Datum.Enter st [] [] st := rfl

/-- One value enters a store. -/
theorem single (st : Store) (d : Datum) :
    Datum.Enter st [d] [some (d.store st).1] (d.store st).2 := rfl

/-- Values enter a store in two parts. -/
theorem append (h : Datum.Enter st ds cs st₁) (h' : Datum.Enter st₁ es cs' st₂) :
    Datum.Enter st (ds ++ es) (cs ++ cs') st₂ := by
  unfold Datum.Enter at h h' ⊢
  induction ds generalizing st cs with
  | nil =>
    obtain ⟨hcells, rfl⟩ := Prod.mk.inj h
    obtain rfl : [] = cs := congrArg Array.toList hcells
    exact h'
  | cons d ds ih =>
    rw [Datum.storeAll_cons] at h
    obtain ⟨hcells, hstore⟩ := Prod.mk.inj h
    have hparts : Datum.storeAll #[] (d.store st).2 ds =
        ((Datum.storeAll #[] (d.store st).2 ds).1.toList.toArray, st₁) := by
      rw [Array.toArray_toList, ← hstore]
    have hrest := ih hparts
    rw [List.cons_append, Datum.storeAll_cons, hrest]
    have hcs : cs = some (d.store st).1 ::
        (Datum.storeAll #[] (d.store st).2 ds).1.toList := by
      simpa using (congrArg Array.toList hcells).symm
    rw [hcs]
    simp

end Datum.Enter

open Datum (Enter)

mutual

/-- The literals of an expression enter the store. -/
theorem Expr.store_literals (e : Expr Datum) (st : Store) :
    Enter st e.literals (e.store st).1.literals (e.store st).2 := by
  match e with
  | .absent => exact .nil st
  | .literal _ d => exact .single st d
  | .load _ _ => exact .nil st
  | .element _ _ row col => exact (row.store_literals st).append (col.store_literals _)
  | .newArray _ rows cols fill =>
    exact ((rows.store_literals st).append (cols.store_literals _)).append (.single _ fill)
  | .call _ _ args => exact Expr.storeAll_literals args st
  | .binary _ _ left right => exact (left.store_literals st).append (right.store_literals _)
  | .negation _ operand => exact operand.store_literals st

/-- The literals of arguments enter the store. -/
theorem Expr.storeAll_literals (es : List (Expr Datum)) (st : Store) :
    Enter st (Expr.literalsAll es) (Expr.literalsAll (Expr.storeAll st es).1)
      (Expr.storeAll st es).2 := by
  match es with
  | [] => exact .nil st
  | e :: es => exact (e.store_literals st).append (Expr.storeAll_literals es _)

end

mutual

/-- The literals of a statement enter the store. -/
theorem Stmt.store_literals (s : Stmt Datum) (st : Store) :
    Enter st s.literals (s.store st).1.literals (s.store st).2 := by
  match s with
  | .absent => exact .nil st
  | .block _ body => exact Stmt.storeAll_literals body st
  | .declare _ _ value => exact value.store_literals st
  | .assign _ _ value => exact value.store_literals st
  | .assignElement _ _ row col value =>
    exact ((row.store_literals st).append (col.store_literals _)).append (value.store_literals _)
  | .branch _ cond yes no =>
    exact ((cond.store_literals st).append (yes.store_literals _)).append (no.store_literals _)
  | .whileLoop _ cond body => exact (cond.store_literals st).append (body.store_literals _)
  | .countLoop _ _ count body => exact (count.store_literals st).append (body.store_literals _)
  | .leave _ => exact .nil st
  | .giveBack _ value => exact value.store_literals st
  | .define _ _ _ body => exact body.store_literals st
  | .perform _ _ args => exact Expr.storeAll_literals args st

/-- The literals of statements enter the store. -/
theorem Stmt.storeAll_literals (ss : List (Stmt Datum)) (st : Store) :
    Enter st (Stmt.literalsAll ss) (Stmt.literalsAll (Stmt.storeAll st ss).1)
      (Stmt.storeAll st ss).2 := by
  match ss with
  | [] => exact .nil st
  | s :: ss => exact (s.store_literals st).append (Stmt.storeAll_literals ss _)

end

/-- Entering a tree enters its literals. -/
theorem Tree.store_literals (t : Tree Datum) (st : Store) :
    Enter st t.literals (t.store st).1.literals (t.store st).2 :=
  Stmt.storeAll_literals t.body st

/-! ## Literals that were read -/

/-- An array of an allowed size is shaped when the cells that were left out are filled in. -/
theorem Datum.padded_shaped {rows cols : Int} (hsize : Grid.sizeAllowed rows cols = true)
    {cells : List Datum} (hcount : cells.length ≤ rows.toNat * cols.toNat)
    (hcells : ∀ d ∈ cells, d.Shaped) :
    (Datum.array rows.toNat cols.toNat (padFalse (rows.toNat * cols.toNat) cells)).Shaped := by
  obtain ⟨r, hr⟩ : ∃ r : Nat, rows = r := by
    exact Int.eq_ofNat_of_zero_le (Grid.sizeAllowed_iff.mp hsize).1
  obtain ⟨c, hc⟩ : ∃ c : Nat, cols = c := by
    exact Int.eq_ofNat_of_zero_le (Grid.sizeAllowed_iff.mp hsize).2.1
  subst hr hc
  refine ⟨hsize, ?_, ?_⟩
  · unfold padFalse
    rw [List.length_append, List.length_replicate]
    omega
  · rw [Datum.allShaped_iff]
    intro d hd
    rcases List.mem_append.mp hd with hd | hd
    · exact hcells d hd
    · obtain rfl := List.eq_of_mem_replicate hd
      trivial

mutual

/-- A literal that is read is shaped. -/
theorem NodeValue.datum_shaped (v : NodeValue) {d : Datum} (h : v.datum = .ok d) : d.Shaped := by
  match v with
  | .absent =>
    cases h
    trivial
  | .fields type int real str bool rows cols cells =>
    unfold NodeValue.datum at h
    split at h
    · cases h
      trivial
    · cases h
      trivial
    · cases h
      trivial
    · cases h
      trivial
    · simp only at h
      split at h
      · cases h
      · rename_i hsize
        split at h
        · cases h
        · rename_i hcount
          split at h
          · rename_i data hdata
            cases h
            -- The size was checked, and cells that are missing are filled up to it.
            obtain ⟨hlength, hshaped⟩ := NodeValue.data_shaped cells hdata nofun
            rw [List.length_nil, Nat.zero_add] at hlength
            rw [Bool.not_eq_true, Bool.not_eq_false'] at hsize
            exact Datum.padded_shaped hsize (by omega) hshaped
          · cases h
    · cases h

/-- Literals that are read are shaped. -/
theorem NodeValue.data_shaped (vs : List NodeValue) {acc ds : List Datum}
    (h : NodeValue.data acc vs = .ok ds) (hacc : ∀ d ∈ acc, d.Shaped) :
    ds.length = acc.length + vs.length ∧ ∀ d ∈ ds, d.Shaped := by
  match vs with
  | [] =>
    cases h
    simpa using hacc
  | v :: vs =>
    unfold NodeValue.data at h
    split at h
    · rename_i d hd
      obtain ⟨hlength, hshaped⟩ := NodeValue.data_shaped vs h
        (List.forall_mem_cons.mpr ⟨v.datum_shaped hd, hacc⟩)
      refine ⟨?_, hshaped⟩
      rw [hlength, List.length_cons, List.length_cons]
      omega
    · cases h

end

/-- The literals of one of some expressions are among those of all. -/
theorem Expr.literals_getD {es : List (Expr ν)} {k : Nat} {v : ν}
    (h : v ∈ (es.getD k .absent).literals) : v ∈ Expr.literalsAll es := by
  induction es generalizing k with
  | nil => cases h
  | cons e es ih =>
    cases k with
    | zero => exact List.mem_append_left _ h
    | succ k => exact List.mem_append_right _ (ih h)

end StackScript
