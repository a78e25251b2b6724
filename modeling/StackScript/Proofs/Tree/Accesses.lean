import StackScript.Proofs.Generate.Emission

/-!
# The accesses of a tree to variables

A tree accesses variables where it declares, sets and reads them, and for each access its code has
one instruction on a slot. `Tree.accesses` lists them in the order of the code, in which the
arguments of a call come last first and a function stands where it is declared. An access names its
function by number, and the index of a counting loop that has no name goes by its hidden one.

An access by name has the slot of the first declaration of the name in its function. The store of a
`declare` does not go by name: it has the slot of its own declaration, which is another one if the
name was declared before (`Access.Redeclares`). Which accesses share a slot follows from the list
alone (`Access.slot_eq_iff`).
-/

namespace StackScript

/-- What an access does with its slot, and how it finds it. -/
inductive Access.Role
  /-- The store of a `declare`, into the slot that the declaration gives out. -/
  | initial
  /-- The first store into a parameter or into the index of a loop, by name. -/
  | bind
  /-- Any other operation on its slot, by name. -/
  | use (op : Opcode)
deriving DecidableEq

/-- An access to a variable. -/
structure Access where
  /-- The number of the function, in the order of declaration; zero stands for the statements
  outside all functions. -/
  owner : Nat
  /-- The variable. -/
  name : Bytes
  /-- What it does with its slot. -/
  role : Access.Role
deriving DecidableEq

/-- The operation of an access on its slot. -/
def Access.op (a : Access) : Opcode :=
  match a.role with
  | .initial | .bind => .store
  | .use op => op

/-- How far one has come in a tree. -/
structure Cursor where
  /-- The number of the function that one is in. -/
  owner : Nat
  /-- The number of functions declared so far. -/
  functions : Nat
  /-- The number of labels made so far. -/
  labels : Nat

mutual

/-- The number of labels that are made for a statement. -/
def Stmt.labelCount : Stmt Cell → Nat
  | .absent => 0
  | .block _ body => Stmt.allLabelCount body
  | .declare _ _ _ => 0
  | .assign _ _ _ => 0
  | .assignElement _ _ _ _ _ => 0
  | .branch _ _ yes no => (if no.isAbsent then 1 else 2) + yes.labelCount + no.labelCount
  | .whileLoop _ _ body => 2 + body.labelCount
  | .countLoop _ index _ body => (if index.isEmpty then 3 else 2) + body.labelCount
  | .leave _ => 0
  | .giveBack _ _ => 0
  | .define _ _ _ body => 1 + body.labelCount
  | .perform _ _ _ => 0

/-- The number of labels that are made for statements in sequence. -/
def Stmt.allLabelCount : List (Stmt Cell) → Nat
  | [] => 0
  | s :: ss => s.labelCount + Stmt.allLabelCount ss

end

namespace Cursor

/-- One has made more labels. -/
def label (c : Cursor) (n : Nat) : Cursor := { c with labels := c.labels + n }

/-- One has come past a statement. -/
def past (c : Cursor) (s : Stmt Cell) : Cursor :=
  { c with functions := c.functions + s.functions.length, labels := c.labels + s.labelCount }

/-- One has come into a function that is declared here. -/
def enter (c : Cursor) : Cursor := ⟨c.functions + 1, c.functions + 1, c.labels + 1⟩

/-- The name of the index of a counting loop that begins here. -/
def indexName (c : Cursor) (index : Bytes) : Bytes :=
  if index.isEmpty then hiddenName (c.labels + 3) else index

end Cursor

mutual

/-- The accesses of an expression in the function with a given number. -/
def Expr.accesses (owner : Nat) : Expr Cell → List Access
  | .absent => []
  | .literal _ _ => []
  | .load _ x => [⟨owner, x, .use .load⟩]
  | .element _ x row col =>
    row.accesses owner ++ col.accesses owner ++ [⟨owner, x, .use .readArray⟩]
  | .newArray _ rows cols _ => rows.accesses owner ++ cols.accesses owner
  | .call _ _ args => Expr.argumentAccesses owner args
  | .binary _ _ left right => left.accesses owner ++ right.accesses owner
  | .negation _ operand => operand.accesses owner

/-- The accesses of the arguments of a call, those of the last first. -/
def Expr.argumentAccesses (owner : Nat) : List (Expr Cell) → List Access
  | [] => []
  | e :: es => Expr.argumentAccesses owner es ++ e.accesses owner

end

mutual

/-- The accesses of a statement. -/
def Stmt.accesses : Stmt Cell → Cursor → List Access
  | .absent, _ => []
  | .block _ body, c => Stmt.allAccesses body c
  | .declare _ x value, c => value.accesses c.owner ++ [⟨c.owner, x, .initial⟩]
  | .assign _ x value, c => value.accesses c.owner ++ [⟨c.owner, x, .use .store⟩]
  | .assignElement _ x row col value, c =>
    row.accesses c.owner ++ col.accesses c.owner ++ value.accesses c.owner ++
      [⟨c.owner, x, .use .writeArray⟩]
  | .branch _ cond yes no, c =>
    let c' := c.label (if no.isAbsent then 1 else 2)
    cond.accesses c.owner ++ yes.accesses c' ++ no.accesses (c'.past yes)
  | .whileLoop _ cond body, c => cond.accesses c.owner ++ body.accesses (c.label 2)
  | .countLoop _ index count body, c =>
    let x := c.indexName index
    [⟨c.owner, x, .bind⟩, ⟨c.owner, x, .use .load⟩] ++ count.accesses c.owner ++
      body.accesses (c.label (if index.isEmpty then 3 else 2)) ++
      [⟨c.owner, x, .use .load⟩, ⟨c.owner, x, .use .store⟩]
  | .leave _, _ => []
  | .giveBack _ value, c => value.accesses c.owner
  | .define _ _ params body, c =>
    (params.map fun x => ⟨c.enter.owner, x, .bind⟩) ++ body.accesses c.enter
  | .perform _ _ args, c => Expr.argumentAccesses c.owner args

/-- The accesses of statements in sequence. -/
def Stmt.allAccesses : List (Stmt Cell) → Cursor → List Access
  | [], _ => []
  | s :: ss, c => s.accesses c ++ Stmt.allAccesses ss (c.past s)

end

/-- The accesses of a program, in the order of its code. -/
def Tree.accesses (t : Tree Cell) : List Access := Stmt.allAccesses t.body ⟨0, 0, 0⟩

/-! ## Declarations and slots -/

/-- Whether an access comes with a declaration. -/
def Access.declares (a : Access) : Bool :=
  match a.role with
  | .initial | .bind => true
  | .use _ => false

/-- The names that a function declares, in order. -/
def declaredBy (owner : Nat) (accesses : List Access) : List Bytes :=
  (accesses.filter fun a => a.owner == owner && a.declares).map Access.name

namespace Access

/-- The slot of an access among all, of which those in front are given. -/
def slot? (all before : List Access) (a : Access) : Option Nat :=
  if a.role = .initial then some (declaredBy a.owner before).length
  else slotOf (declaredBy a.owner all) a.name

/-- An access is the store of a `declare` whose name its function declared before. -/
def Redeclares (before : List Access) (a : Access) : Prop :=
  a.role = .initial ∧ a.name ∈ declaredBy a.owner before

instance (before : List Access) (a : Access) : Decidable (a.Redeclares before) :=
  inferInstanceAs (Decidable (_ ∧ _))

end Access

/-- What two parts declare. -/
theorem declaredBy_append (owner : Nat) (as bs : List Access) :
    declaredBy owner (as ++ bs) = declaredBy owner as ++ declaredBy owner bs := by
  unfold declaredBy
  rw [List.filter_append, List.map_append]

/-- A name is declared by an access that declares it. -/
theorem mem_declaredBy {owner : Nat} {name : Bytes} {as : List Access} :
    name ∈ declaredBy owner as ↔ ∃ a ∈ as, a.owner = owner ∧ a.declares = true ∧ a.name = name := by
  simp [declaredBy, and_assoc]

/-- A first part declares a first part. -/
theorem declaredBy_initial {as bs : List Access} (owner : Nat) (h : as <+: bs) :
    declaredBy owner as <+: declaredBy owner bs := by
  obtain ⟨rest, rfl⟩ := h
  rw [declaredBy_append]
  exact List.prefix_append _ _

/-- A declaration declares its name. -/
theorem declaredBy_self {a : Access} (h : a.declares = true) :
    declaredBy a.owner [a] = [a.name] := by
  simp [declaredBy, h]

/-- Other accesses declare nothing. -/
theorem declaredBy_other (owner : Nat) {as : List Access}
    (h : ∀ a ∈ as, a.owner ≠ owner ∨ a.declares = false) : declaredBy owner as = [] := by
  unfold declaredBy
  rw [List.map_eq_nil_iff, List.filter_eq_nil_iff]
  intro a ha
  rcases h a ha with h | h <;> simp [h]

/-- There are not more declarations than accesses. -/
theorem length_declaredBy_le (owner : Nat) (as : List Access) :
    (declaredBy owner as).length ≤ as.length := by
  rw [declaredBy, List.length_map]
  exact List.length_filter_le _ _

section

variable {all before before' after after' : List Access} {a b : Access} {k m : Nat}

/-- The slot of an access was given out for its name. -/
theorem Access.getElem?_slot (hall : all = before ++ a :: after)
    (h : a.slot? all before = some k) : (declaredBy a.owner all)[k]? = some a.name := by
  unfold slot? at h
  split at h
  · rename_i hinitial
    cases h
    have hself := declaredBy_self (a := a) (by simp [declares, hinitial])
    rw [hall, ← List.singleton_append, declaredBy_append, declaredBy_append, hself]
    simp
  · exact slotOf_eq_some h

/-- The first slot of a name is not behind that of any access to it, and only the store of a
`declare` that is not the first declaration has another one. -/
theorem Access.slot_first (hall : all = before ++ a :: after) (h : a.slot? all before = some k) :
    ∃ m, slotOf (declaredBy a.owner all) a.name = some m ∧ m ≤ k ∧
      (m = k ↔ ¬a.Redeclares before) := by
  unfold slot? at h
  split at h
  · rename_i hinitial
    cases h
    have hself := declaredBy_self (a := a) (by simp [declares, hinitial])
    rw [hall, ← List.singleton_append, declaredBy_append, declaredBy_append, hself]
    unfold Redeclares
    by_cases hmem : a.name ∈ declaredBy a.owner before
    · -- The name is found in front.
      obtain ⟨m, hm⟩ : ∃ m, slotOf (declaredBy a.owner before) a.name = some m := by
        rw [← Option.isSome_iff_exists]
        simpa [slotOf, List.findIdx?_isSome] using hmem
      have hlt := slotOf_lt hm
      refine ⟨m, slotOf_of_initial (List.prefix_append _ _) hm, Nat.le_of_lt hlt, ?_⟩
      simp only [hinitial, hmem, and_self, not_true_eq_false, iff_false]
      omega
    · -- The name is new, so its first slot is the one that is given out here.
      have hnone : slotOf (declaredBy a.owner before) a.name = none := by
        rw [slotOf, List.findIdx?_eq_none_iff]
        intro x hx
        rw [beq_eq_false_iff_ne]
        rintro rfl
        exact hmem hx
      refine ⟨(declaredBy a.owner before).length, ?_, Nat.le_refl _, by simp [hmem]⟩
      unfold slotOf at hnone ⊢
      rw [List.findIdx?_append, hnone]
      simp [List.findIdx?_cons]
  · rename_i hrole
    exact ⟨k, h, Nat.le_refl k, by simp [Redeclares, hrole]⟩

/-- A variable is read from its first slot. -/
theorem Access.slot_of_load (hall : all = before ++ a :: after) (hload : b.op = .load)
    (howner : a.owner = b.owner) (hname : a.name = b.name) (h : a.slot? all before = some k)
    (h' : b.slot? all before' = some m) : m ≤ k ∧ (m = k ↔ ¬a.Redeclares before) := by
  have hrole : b.role ≠ .initial := by
    intro hinitial
    rw [Access.op, hinitial] at hload
    cases hload
  obtain ⟨f, hf, hle, hfirst⟩ := slot_first hall h
  rw [slot?, if_neg hrole, ← howner, ← hname, hf] at h'
  cases h'
  exact ⟨hle, hfirst⟩

/-- The slots of two `declare`s of one function differ. -/
theorem Access.slot_lt_of_initial (hinitial : a.role = .initial) (hb : b.role = .initial)
    (howner : a.owner = b.owner) (hbefore : before ++ [a] <+: before')
    (h : a.slot? all before = some k) (h' : b.slot? all before' = some m) : k < m := by
  unfold slot? at h h'
  rw [if_pos hinitial] at h
  rw [if_pos hb] at h'
  cases h
  cases h'
  have hle := (declaredBy_initial b.owner hbefore).length_le
  have hself := declaredBy_self (a := a) (by simp [declares, hinitial])
  rw [declaredBy_append, ← howner, hself, List.length_append] at hle
  rw [← howner]
  exact hle

/-- Two accesses of one function, the first in front of the second, have one slot if they access one
variable and neither is the store of a `declare` whose name was declared before. -/
theorem Access.slot_eq_iff (hall : all = before ++ a :: after)
    (hall' : all = before' ++ b :: after') (hbefore : before ++ [a] <+: before')
    (howner : a.owner = b.owner) (h : a.slot? all before = some k)
    (h' : b.slot? all before' = some m) :
    k = m ↔ a.name = b.name ∧ ¬a.Redeclares before ∧ ¬b.Redeclares before' := by
  obtain ⟨f, hf, hfk, hfirst⟩ := slot_first hall h
  obtain ⟨g, hg, hgm, hfirst'⟩ := slot_first hall' h'
  constructor
  · rintro rfl
    -- The slot was given out for one name, so the first slots are the same too.
    have hname : a.name = b.name := by
      have hget := getElem?_slot hall h
      rw [howner, getElem?_slot hall' h'] at hget
      exact (Option.some.inj hget).symm
    rw [howner, hname, hg] at hf
    cases hf
    have hsame : a.Redeclares before ↔ b.Redeclares before' :=
      Decidable.not_iff_not.mp (hfirst.symm.trans hfirst')
    have hnot : ¬a.Redeclares before := fun ha =>
      Nat.lt_irrefl _ (slot_lt_of_initial ha.1 (hsame.mp ha).1 howner hbefore h h')
    exact ⟨hname, hnot, fun hb => hnot (hsame.mpr hb)⟩
  · rintro ⟨hname, hnot, hnot'⟩
    rw [howner, hname, hg] at hf
    cases hf
    rw [← hfirst.mpr hnot, ← hfirst'.mpr hnot']

end

end StackScript
