import StackScript.Compile.Generate
import StackScript.Proofs.Tree.Functions
import StackScript.Proofs.Value.Pool

/-!
# What generation appends

Generating code threads a compilation through a tree. What it does to the code can be said without
the compilation: `Expr.Emits` and `Stmt.Emits` relate a piece of a tree to the instructions that are
appended for it. They are given the constants of the finished program, of which those at the time
are a beginning, and the progress of the function that is being generated: the number of labels made
so far and the variables declared so far. Everything that is proved about generated code is proved
from these relations.
-/

namespace StackScript

variable {x : Bytes} {vars : List Bytes} {k : Nat}

/-- The slot of a variable: the place of its first declaration. -/
def slotOf (slots : List Bytes) (x : Bytes) : Option Nat := slots.findIdx? fun y => y == x

/-- A variable keeps its slot when more are declared. -/
theorem slotOf_of_initial {slots : List Bytes} (h : slots <+: vars) (hx : slotOf slots x = some k) :
    slotOf vars x = some k := by
  obtain ⟨rest, rfl⟩ := h
  unfold slotOf at hx ⊢
  rw [List.findIdx?_append, hx]
  rfl

/-- A slot is the one of a variable. -/
theorem slotOf_eq_some (h : slotOf vars x = some k) : vars[k]? = some x := by
  unfold slotOf at h
  obtain ⟨hk, hx, -⟩ := List.findIdx?_eq_some_iff_getElem.mp h
  rw [List.getElem?_eq_getElem hk]
  simpa using hx

/-- A slot is one of those there are. -/
theorem slotOf_lt (h : slotOf vars x = some k) : k < vars.length :=
  (List.getElem?_eq_some_iff.mp (slotOf_eq_some h)).1

/-- The name of the index of a counting loop that has none of its own; `n` is the number of the
label that it is made of. -/
def hiddenName (n : Nat) : Bytes := "<" ++ generatedLabel n "index" ++ ">"

namespace Instruction

/-- An instruction with an operand. -/
def on (op : Opcode) (n : Nat) : Instruction := { op, operand := UInt64.ofNat n }

/-- A jump to a label. -/
def jumpTo (op : Opcode) (label : Bytes) : Instruction := { op, target := label }

/-- The marker of a label. -/
def marker (label : Bytes) : Instruction := { op := .noop, label }

/-- A call that is not linked yet. -/
def callOf (name : Bytes) (argc : Nat) : Instruction :=
  { op := .call, target := functionLabel name, callee := name, argc }

end Instruction

/-- How far generation has come in a function. -/
structure Progress where
  /-- The number of labels made so far in the program. -/
  labels : Nat
  /-- The variables declared so far in the function, in the order of their slots. -/
  slots : List Bytes

namespace Progress

/-- The progress after more labels were made. -/
def label (σ : Progress) (n : Nat) : Progress := { σ with labels := σ.labels + n }

/-- The progress after a variable was declared. -/
def declare (σ : Progress) (x : Bytes) : Progress := { σ with slots := σ.slots ++ [x] }

/-- The name of the index of a counting loop. -/
def indexName (σ : Progress) (index : Bytes) : Bytes :=
  if index.isEmpty then hiddenName (σ.labels + 3) else index

/-- The progress when the code of a counting loop begins: its labels are made, one more if its index
is hidden, and its index is declared. -/
def enterCount (σ : Progress) (index : Bytes) : Progress :=
  (σ.label (if index.isEmpty then 3 else 2)).declare (σ.indexName index)

end Progress

open Instruction

mutual

/-- The instructions that are appended for an expression. -/
def Expr.Emits (constants : List Cell) (slots : List Bytes) :
    Expr Cell → List Instruction → Prop
  | .absent, _ => False
  | .literal _ v, code => ∃ k, StandsFor constants k v ∧ code = [on .constant k]
  | .load _ x, code => ∃ k, slotOf slots x = some k ∧ code = [on .load k]
  | .element _ x row col, code =>
    ∃ r c k, row.Emits constants slots r ∧ col.Emits constants slots c ∧
      slotOf slots x = some k ∧ code = r ++ c ++ [on .readArray k]
  | .newArray _ rows cols fill, code =>
    ∃ r c k, rows.Emits constants slots r ∧ cols.Emits constants slots c ∧
      StandsFor constants k (some (fill.getD (.boolean false))) ∧
      code = r ++ c ++ [on .constant k, on .makeArray 0]
  | .call _ name args, code =>
    ∃ c, Expr.EmitsArguments constants slots args c ∧ code = c ++ [callOf name args.length]
  | .binary _ op left right, code =>
    ∃ l r o, op.opcode? = some o ∧ left.Emits constants slots l ∧
      right.Emits constants slots r ∧ code = l ++ r ++ [on o 0]
  | .negation _ operand, code =>
    ∃ c, operand.Emits constants slots c ∧ code = c ++ [on .not 0]

/-- The instructions that are appended for the arguments of a call. -/
def Expr.EmitsArguments (constants : List Cell) (slots : List Bytes) :
    List (Expr Cell) → List Instruction → Prop
  | [], code => code = []
  | e :: es, code =>
    ∃ rest c, Expr.EmitsArguments constants slots es rest ∧ e.Emits constants slots c ∧
      code = rest ++ c

end

/-- The instructions that leave a function with the value false. -/
def EmitsFalse (constants : List Cell) (code : List Instruction) : Prop :=
  ∃ k, StandsFor constants k (some (.boolean false)) ∧ code = [on .constant k, on .ret 0]

/-- The instructions that store the arguments of a call into the parameters. -/
def storesOf (params : List Bytes) : List Instruction :=
  params.map fun x => on .store ((slotOf params x).getD 0)

mutual

/-- The instructions that are appended for a statement, and the progress before and after. The label
`stop` is the one that a `leave` jumps to. -/
def Stmt.Emits (constants : List Cell) (stop : Option Bytes) :
    Stmt Cell → Progress → List Instruction → Progress → Prop
  | .absent, σ, code, τ => code = [] ∧ τ = σ
  | .block _ body, σ, code, τ => Stmt.EmitsAll constants stop body σ code τ
  | .declare _ x value, σ, code, τ =>
    ∃ c, value.Emits constants (σ.declare x).slots c ∧
      code = c ++ [on .store σ.slots.length] ∧ τ = σ.declare x
  | .assign _ x value, σ, code, τ =>
    ∃ c k, value.Emits constants σ.slots c ∧ slotOf σ.slots x = some k ∧
      code = c ++ [on .store k] ∧ τ = σ
  | .assignElement _ x row col value, σ, code, τ =>
    ∃ r c v k, row.Emits constants σ.slots r ∧ col.Emits constants σ.slots c ∧
      value.Emits constants σ.slots v ∧ slotOf σ.slots x = some k ∧
      code = r ++ c ++ v ++ [on .writeArray k] ∧ τ = σ
  | .branch _ cond yes no, σ, code, τ =>
    let done := generatedLabel (σ.labels + 1) "end"
    if no.isAbsent then
      ∃ c y, cond.Emits constants σ.slots c ∧ yes.Emits constants stop (σ.label 1) y τ ∧
        code = c ++ [jumpTo .jumpUnless done] ++ y ++ [jumpTo .jump done, marker done]
    else
      let otherwise := generatedLabel (σ.labels + 2) "false"
      ∃ c y n ρ, cond.Emits constants σ.slots c ∧ yes.Emits constants stop (σ.label 2) y ρ ∧
        no.Emits constants stop ρ n τ ∧
        code = c ++ [jumpTo .jumpUnless otherwise] ++ y ++ [jumpTo .jump done, marker otherwise] ++
          n ++ [marker done]
  | .whileLoop _ cond body, σ, code, τ =>
    let start := generatedLabel (σ.labels + 1) "begin"
    let done := generatedLabel (σ.labels + 2) "end"
    ∃ c b, cond.Emits constants σ.slots c ∧ body.Emits constants (some done) (σ.label 2) b τ ∧
      code = [marker start] ++ c ++ [jumpTo .jumpUnless done] ++ b ++
        [jumpTo .jump start, marker done]
  | .countLoop _ index count body, σ, code, τ =>
    let start := generatedLabel (σ.labels + 1) "begin"
    let done := generatedLabel (σ.labels + 2) "end"
    let ρ := σ.enterCount index
    ∃ c b k k0 k1, slotOf ρ.slots (σ.indexName index) = some k ∧
      StandsFor constants k0 (some (.integer 0)) ∧ count.Emits constants ρ.slots c ∧
      body.Emits constants (some done) ρ b τ ∧ StandsFor constants k1 (some (.integer 1)) ∧
      code = [on .constant k0, on .store k, marker start, on .load k] ++ c ++
        [on .lt 0, jumpTo .jumpUnless done] ++ b ++
        [on .load k, on .constant k1, on .add 0, on .store k, jumpTo .jump start, marker done]
  | .leave _, σ, code, τ => ∃ label, stop = some label ∧ code = [jumpTo .jump label] ∧ τ = σ
  | .giveBack _ value, σ, code, τ =>
    if value.isAbsent then EmitsFalse constants code ∧ τ = σ
    else ∃ c, value.Emits constants σ.slots c ∧ code = c ++ [on .ret 0] ∧ τ = σ
  | .define _ name params body, σ, code, τ =>
    let done := generatedLabel (σ.labels + 1) "function-end"
    ∃ b r ρ, body.Emits constants stop ⟨σ.labels + 1, params⟩ b ρ ∧ EmitsFalse constants r ∧
      code = [jumpTo .jump done, marker (functionLabel name), on .frame ρ.slots.length] ++
        storesOf params ++ b ++ r ++ [marker done] ∧
      τ = { σ with labels := ρ.labels }
  | .perform _ name args, σ, code, τ =>
    ∃ c, Expr.EmitsArguments constants σ.slots args c ∧
      code = c ++ [callOf name args.length, on .pop 0] ∧ τ = σ

/-- The instructions that are appended for statements in sequence. -/
def Stmt.EmitsAll (constants : List Cell) (stop : Option Bytes) :
    List (Stmt Cell) → Progress → List Instruction → Progress → Prop
  | [], σ, code, τ => code = [] ∧ τ = σ
  | s :: ss, σ, code, τ =>
    ∃ c rest ρ, s.Emits constants stop σ c ρ ∧ Stmt.EmitsAll constants stop ss ρ rest τ ∧
      code = c ++ rest

end

/-- The instructions of a whole program. -/
def Tree.Emits (constants : List Cell) (t : Tree Cell) (code : List Instruction) : Prop :=
  ∃ b r ρ, Stmt.EmitsAll constants none t.body ⟨0, []⟩ b ρ ∧ EmitsFalse constants r ∧
    code = [on .frame ρ.slots.length] ++ b ++ r

end StackScript
