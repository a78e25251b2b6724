import StackScript.Proofs.Tree.Accesses

/-!
# Declarations and uses of names

Generation comes to the declarations of a tree, to its uses of variables and to its breaks in one
order, and each use and each break is checked when it comes to it. `Tree.mentions` lists them in
this order. A variable is declared in front of the value that it starts with, the index of a loop in
front of its count and its body, and the parameters of a function in front of its body. A name that
is assigned, or whose elements are accessed, is looked up behind all operands, and the arguments of
a call come last first.

A variable belongs to a function, which goes by its number, so a body has the declarations of no
other function; a branch or a loop has no declarations of its own, and what it declares is declared
behind it as well. The index of a counting loop that has no name goes by its hidden one.

A mention offends if it uses a variable that its function has not declared in front of it, or if it
leaves a loop where there is none (`Mention.offence?`). A tree is well scoped if nothing in it
offends, and the first mention that does is the one that generation reports.
-/

namespace StackScript

/-- What a node of a tree declares or asks for. -/
inductive Mention
  /-- A variable of a function is declared. -/
  | declare (owner : Nat) (name : Bytes)
  /-- A variable of a function is set or read. -/
  | use (pos : Position) (owner : Nat) (name : Bytes)
  /-- The innermost loop is left; `inside` says whether there is a loop. -/
  | leave (pos : Position) (inside : Bool)
deriving DecidableEq

mutual

/-- The mentions of an expression in the function with a given number. -/
def Expr.mentions (owner : Nat) : Expr Cell → List Mention
  | .absent => []
  | .literal _ _ => []
  | .load pos x => [.use pos owner x]
  | .element pos x row col => row.mentions owner ++ (col.mentions owner ++ [.use pos owner x])
  | .newArray _ rows cols _ => rows.mentions owner ++ cols.mentions owner
  | .call _ _ args => Expr.argumentMentions owner args
  | .binary _ _ left right => left.mentions owner ++ right.mentions owner
  | .negation _ operand => operand.mentions owner

/-- The mentions of the arguments of a call, those of the last first. -/
def Expr.argumentMentions (owner : Nat) : List (Expr Cell) → List Mention
  | [] => []
  | e :: es => Expr.argumentMentions owner es ++ e.mentions owner

end

mutual

/-- The mentions of a statement; `inside` says whether it stands in a loop. -/
def Stmt.mentions : Stmt Cell → Cursor → (inside : Bool) → List Mention
  | .absent, _, _ => []
  | .block _ body, c, inside => Stmt.allMentions body c inside
  | .declare _ x value, c, _ => .declare c.owner x :: value.mentions c.owner
  | .assign pos x value, c, _ => value.mentions c.owner ++ [.use pos c.owner x]
  | .assignElement pos x row col value, c, _ =>
    row.mentions c.owner ++ (col.mentions c.owner ++ (value.mentions c.owner ++
      [.use pos c.owner x]))
  | .branch _ cond yes no, c, inside =>
    let c' := c.label (if no.isAbsent then 1 else 2)
    cond.mentions c.owner ++ (yes.mentions c' inside ++ no.mentions (c'.past yes) inside)
  | .whileLoop _ cond body, c, _ => cond.mentions c.owner ++ body.mentions (c.label 2) true
  | .countLoop _ index count body, c, _ =>
    -- A hidden name is a name like any other: the tree can use it from here on.
    .declare c.owner (c.indexName index) :: (count.mentions c.owner ++
      body.mentions (c.label (if index.isEmpty then 3 else 2)) true)
  | .leave pos, _, inside => [.leave pos inside]
  | .giveBack _ value, c, _ => value.mentions c.owner
  | .define _ _ params body, c, inside =>
    -- The body has none of the variables around it, but it is inside the loops around it.
    params.map (.declare c.enter.owner) ++ body.mentions c.enter inside
  | .perform _ _ args, c, _ => Expr.argumentMentions c.owner args

/-- The mentions of statements in sequence. -/
def Stmt.allMentions : List (Stmt Cell) → Cursor → (inside : Bool) → List Mention
  | [], _, _ => []
  | s :: ss, c, inside => s.mentions c inside ++ Stmt.allMentions ss (c.past s) inside

end

/-- The mentions of a program, in the order in which generation comes to them. -/
def Tree.mentions (t : Tree Cell) : List Mention := Stmt.allMentions t.body ⟨0, 0, 0⟩ false

namespace Mention

/-! ## Offences -/

/-- What is wrong with a mention, of which those in front are given: it has the position of its
node. -/
def offence? (before : List Mention) : Mention → Option CompileError
  | .declare _ _ => none
  | .use pos owner name =>
    if .declare owner name ∈ before then none else some ⟨some pos, .variableNotFound name⟩
  | .leave pos inside => if inside then none else some ⟨some pos, .breakOutsideLoop⟩

/-- Nothing is wrong with any mention. -/
def WellScoped (ms : List Mention) : Prop :=
  ∀ before m after, ms = before ++ m :: after → m.offence? before = none

/-- The first mention with which something is wrong, and what that is. -/
def FirstOffence (ms : List Mention) (e : CompileError) : Prop :=
  ∃ before m after, ms = before ++ m :: after ∧ WellScoped before ∧ m.offence? before = some e

/-- What is wrong first with mentions behind others. -/
def firstOffence? (before : List Mention) : List Mention → Option CompileError
  | [] => none
  | m :: ms => (m.offence? before).or (firstOffence? (before ++ [m]) ms)

/-- The first offence of two parts. -/
theorem firstOffence?_append (before as bs : List Mention) :
    firstOffence? before (as ++ bs) =
      (firstOffence? before as).or (firstOffence? (before ++ as) bs) := by
  induction as generalizing before with
  | nil => rw [List.append_nil]; rfl
  | cons m as ih =>
    rw [List.cons_append, firstOffence?, firstOffence?, ih, Option.or_assoc, List.append_assoc,
      List.singleton_append]

/-- One mention offends or does not. -/
theorem firstOffence?_single (before : List Mention) (m : Mention) :
    firstOffence? before [m] = m.offence? before :=
  Option.or_none

/-- No mentions offend. -/
theorem wellScoped_nil : WellScoped [] := by
  intro before m after h
  cases List.append_eq_nil_iff.mp h.symm |>.2

/-- A last mention must not offend. -/
theorem wellScoped_concat {ms : List Mention} {m : Mention} :
    WellScoped (ms ++ [m]) ↔ WellScoped ms ∧ m.offence? ms = none := by
  constructor
  · intro h
    refine ⟨fun before m' after hms => h before m' (after ++ [m]) ?_, h ms m [] rfl⟩
    rw [hms, List.append_assoc, List.cons_append]
  · rintro ⟨h, hm⟩ before m' after hms
    -- The mention is the last one, or it stands in front of the last one.
    rcases List.eq_nil_or_concat after with rfl | ⟨after, last, rfl⟩
    · obtain ⟨rfl, hlast⟩ := List.append_inj' hms rfl
      cases hlast
      exact hm
    · rw [List.concat_eq_append, ← List.cons_append, ← List.append_assoc] at hms
      exact h before m' after (List.append_inj' hms rfl).1

/-- The check stops at the first mention with which something is wrong. -/
theorem firstOffence?_spec {before : List Mention} (h : WellScoped before) (ms : List Mention) :
    (firstOffence? before ms = none → WellScoped (before ++ ms)) ∧
      ∀ e, firstOffence? before ms = some e → FirstOffence (before ++ ms) e := by
  induction ms generalizing before with
  | nil =>
    rw [List.append_nil]
    exact ⟨fun _ => h, fun e he => (by cases he)⟩
  | cons m ms ih =>
    rw [firstOffence?]
    cases hm : m.offence? before with
    | none =>
      have hrest := ih (wellScoped_concat.mpr ⟨h, hm⟩)
      rwa [List.append_assoc, List.singleton_append] at hrest
    | some e =>
      constructor
      · intro hnone
        cases hnone
      · intro e' he'
        cases he'
        exact ⟨before, m, ms, rfl, h, hm⟩

/-- There is nothing wrong with mentions that are well scoped. -/
theorem WellScoped.firstOffence? {ms : List Mention} (h : WellScoped ms) :
    firstOffence? [] ms = none := by
  cases hfirst : Mention.firstOffence? [] ms with
  | none => rfl
  | some e =>
    obtain ⟨before, m, after, rfl, -, hm⟩ := (firstOffence?_spec wellScoped_nil ms).2 e hfirst
    rw [h before m after rfl] at hm
    cases hm

/-- There is one first offence. -/
theorem FirstOffence.firstOffence? {ms : List Mention} {e : CompileError} (h : FirstOffence ms e) :
    firstOffence? [] ms = some e := by
  obtain ⟨before, m, after, rfl, hbefore, hm⟩ := h
  rw [firstOffence?_append, hbefore.firstOffence?, List.nil_append, Mention.firstOffence?, hm]
  rfl

/-! ## The variables of a function -/

/-- The variable that a mention declares in a function. -/
def declared? (owner : Nat) : Mention → Option Bytes
  | .declare o name => if o = owner then some name else none
  | _ => none

/-- The variables that mentions declare in a function, in order. -/
def variablesOf (owner : Nat) (ms : List Mention) : List Bytes := ms.filterMap (declared? owner)

/-- The variables of two parts. -/
theorem variablesOf_append (owner : Nat) (as bs : List Mention) :
    variablesOf owner (as ++ bs) = variablesOf owner as ++ variablesOf owner bs :=
  List.filterMap_append

/-- The variables are those declared. -/
theorem mem_variablesOf {owner : Nat} {name : Bytes} {ms : List Mention} :
    name ∈ variablesOf owner ms ↔ .declare owner name ∈ ms := by
  rw [variablesOf, List.mem_filterMap]
  constructor
  · rintro ⟨m, hm, hname⟩
    cases m with
    | declare o x =>
      obtain ⟨rfl, h⟩ := Option.ite_none_right_eq_some.mp hname
      cases h
      exact hm
    | use pos o x => cases hname
    | leave pos inside => cases hname
  · intro h
    exact ⟨_, h, if_pos rfl⟩

/-- The declarations of names in a function. -/
theorem variablesOf_declare (o owner : Nat) (names : List Bytes) :
    variablesOf o (names.map (.declare owner)) = if owner = o then names else [] := by
  unfold variablesOf
  rw [List.filterMap_map]
  by_cases h : owner = o
  · have hall : declared? o ∘ .declare owner = some := funext fun _ => if_pos h
    rw [if_pos h, hall, List.filterMap_some]
  · have hnone : declared? o ∘ .declare owner = fun _ => none := funext fun _ => if_neg h
    rw [if_neg h, hnone, List.filterMap_eq_nil_iff]
    exact fun _ _ => rfl

end Mention

open Mention

mutual

/-- An expression declares nothing. -/
theorem Expr.variablesOf_mentions (o owner : Nat) (e : Expr Cell) :
    variablesOf o (e.mentions owner) = [] := by
  match e with
  | .absent => rfl
  | .literal _ _ => rfl
  | .load _ _ => rfl
  | .element _ _ row col =>
    rw [Expr.mentions, variablesOf_append, variablesOf_append, row.variablesOf_mentions,
      col.variablesOf_mentions]
    rfl
  | .newArray _ rows cols _ =>
    rw [Expr.mentions, variablesOf_append, rows.variablesOf_mentions, cols.variablesOf_mentions]
    rfl
  | .call _ _ args => exact Expr.variablesOf_argumentMentions o owner args
  | .binary _ _ left right =>
    rw [Expr.mentions, variablesOf_append, left.variablesOf_mentions, right.variablesOf_mentions]
    rfl
  | .negation _ operand => exact operand.variablesOf_mentions o owner

/-- Arguments declare nothing. -/
theorem Expr.variablesOf_argumentMentions (o owner : Nat) (es : List (Expr Cell)) :
    variablesOf o (Expr.argumentMentions owner es) = [] := by
  match es with
  | [] => rfl
  | e :: es =>
    rw [Expr.argumentMentions, variablesOf_append, Expr.variablesOf_argumentMentions,
      e.variablesOf_mentions]
    rfl

end

mutual

/-- A statement declares nothing in the functions that were declared in front of it, but in its
own. -/
theorem Stmt.variablesOf_mentions {o : Nat} (s : Stmt Cell) (c : Cursor) (inside : Bool)
    (hother : c.owner ≠ o) (hle : o ≤ c.functions) : variablesOf o (s.mentions c inside) = [] := by
  match s with
  | .absent => rfl
  | .block _ body => exact Stmt.variablesOf_allMentions body c inside hother hle
  | .declare _ x value =>
    change variablesOf o ([x].map (.declare c.owner) ++ value.mentions c.owner) = []
    rw [variablesOf_append, variablesOf_declare, if_neg hother, value.variablesOf_mentions]
    rfl
  | .assign _ x value =>
    rw [Stmt.mentions, variablesOf_append, value.variablesOf_mentions]
    rfl
  | .assignElement _ x row col value =>
    rw [Stmt.mentions, variablesOf_append, variablesOf_append, variablesOf_append,
      row.variablesOf_mentions, col.variablesOf_mentions, value.variablesOf_mentions]
    rfl
  | .branch _ cond yes no =>
    have hyes := yes.variablesOf_mentions (c.label (if no.isAbsent then 1 else 2)) inside hother hle
    have hno := no.variablesOf_mentions ((c.label (if no.isAbsent then 1 else 2)).past yes) inside
      hother (Nat.le_add_right_of_le hle)
    rw [Stmt.mentions, variablesOf_append, variablesOf_append, cond.variablesOf_mentions, hyes, hno]
    rfl
  | .whileLoop _ cond body =>
    rw [Stmt.mentions, variablesOf_append, cond.variablesOf_mentions,
      body.variablesOf_mentions (c.label 2) true hother hle]
    rfl
  | .countLoop _ index count body =>
    have hbody := body.variablesOf_mentions (c.label (if index.isEmpty then 3 else 2)) true hother
      hle
    change variablesOf o ([c.indexName index].map (.declare c.owner) ++ (count.mentions c.owner ++
      body.mentions (c.label (if index.isEmpty then 3 else 2)) true)) = []
    rw [variablesOf_append, variablesOf_append, variablesOf_declare, if_neg hother,
      count.variablesOf_mentions, hbody]
    rfl
  | .leave _ => rfl
  | .giveBack _ value => exact value.variablesOf_mentions o c.owner
  | .define _ _ params body =>
    -- Functions are numbered as they come, so this one has a number above all that came before.
    have hnew : c.enter.owner ≠ o := Nat.ne_of_gt (Nat.lt_succ_of_le hle)
    rw [Stmt.mentions, variablesOf_append, variablesOf_declare, if_neg hnew,
      body.variablesOf_mentions c.enter inside hnew (Nat.le_succ_of_le hle)]
    rfl
  | .perform _ _ args => exact Expr.variablesOf_argumentMentions o c.owner args

/-- Statements declare nothing for others. -/
theorem Stmt.variablesOf_allMentions {o : Nat} (ss : List (Stmt Cell)) (c : Cursor) (inside : Bool)
    (hother : c.owner ≠ o) (hle : o ≤ c.functions) :
    variablesOf o (Stmt.allMentions ss c inside) = [] := by
  match ss with
  | [] => rfl
  | s :: ss =>
    have hpast : o ≤ c.functions + s.functions.length := Nat.le_add_right_of_le hle
    rw [Stmt.allMentions, variablesOf_append, s.variablesOf_mentions c inside hother hle,
      Stmt.variablesOf_allMentions ss (c.past s) inside hother hpast]
    rfl

end

end StackScript
