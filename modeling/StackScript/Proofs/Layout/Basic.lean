import StackScript.Machine.State
import StackScript.Proofs.Generate.Emission
import StackScript.Proofs.Tree.Conditions

/-!
# The layout of linked code

Linked code has no labels any more: what is known of it is which instruction stands where. `Expr.At`
and `Stmt.At` say that the code of a piece of a tree stands in a program from one place up to
another, with all its jumps resolved. Everything that is proved about runs of a compiled program is
proved from these, one clause for each construct of the language.
-/

namespace StackScript

/-- A linked program and what it was made of. -/
structure Layout where
  /-- The program. -/
  program : Program
  /-- The functions that it declares. -/
  functions : List Function
  /-- The place of the frame of the function of a given name. -/
  entry : Bytes → Nat
  /-- The index that a function of the host was declared with. -/
  native : Bytes → Option Nat
  /-- Whether no name is declared twice in a function. -/
  once : Prop

namespace Layout

variable (L : Layout)

/-- The instruction at a place has an operation and an operand. -/
def Has (place : Nat) (op : Opcode) (n : Nat) : Prop :=
  ∃ i, L.program.code[place]? = some i ∧ i.op = op ∧ i.operand.toNat = n

/-- The instruction at a place pushes the constant that stands for a literal. -/
def Pushes (place : Nat) (v : Cell) : Prop :=
  ∃ k, StandsFor L.program.constants.toList k v ∧ L.Has place .constant k

/-- A call with `k` arguments on the stack stands from `a` to `b`. A function of the program has its
missing arguments pushed first. -/
def CallAt (name : Bytes) (k a b : Nat) : Prop :=
  match functionNamed? L.functions name with
  | some d =>
    k ≤ d.params.length ∧ (∀ j < d.params.length - k, L.Has (a + j) .constant Pool.falseIndex) ∧
      L.Has (a + (d.params.length - k)) .call (L.entry name) ∧ b = a + (d.params.length - k) + 1
  | none =>
    ∃ i o, L.native name = some i ∧ L.program.code[a]? = some o ∧ o.op = .callHost ∧
      HostCall.unpack o.operand = ⟨k, i % 0x400000⟩ ∧ b = a + 1

/-- Leaving a function with the value false stands from `a` to `b`. -/
def FalseAt (a b : Nat) : Prop :=
  L.Pushes a (some (.boolean false)) ∧ L.Has (a + 1) .ret 0 ∧ b = a + 2

/-- The beginning of a function with the given variables, its parameters and `count` more, stands
at `a`: its frame is allocated and its arguments are stored. -/
def PrologueAt (params : List Bytes) (count : Nat) (vars : List Bytes) (a : Nat) : Prop :=
  params <+: vars ∧ vars.length = params.length + count ∧ L.Has a .frame vars.length ∧
    ∀ i x, params[i]? = some x → ∃ k, slotOf vars x = some k ∧ L.Has (a + 1 + i) .store k

end Layout

mutual

/-- The code of an expression in a function with the given variables stands from `a` to `b`. -/
def Expr.At (L : Layout) (vars : List Bytes) : Expr Cell → Nat → Nat → Prop
  | .absent, _, _ => False
  | .literal _ v, a, b => L.Pushes a v ∧ b = a + 1
  | .load _ x, a, b => ∃ k, slotOf vars x = some k ∧ L.Has a .load k ∧ b = a + 1
  | .element _ x row col, a, b =>
    ∃ m n k, row.At L vars a m ∧ col.At L vars m n ∧ slotOf vars x = some k ∧
      L.Has n .readArray k ∧ b = n + 1
  | .newArray _ rows cols fill, a, b =>
    ∃ m n, rows.At L vars a m ∧ cols.At L vars m n ∧
      L.Pushes n (some (fill.getD (.boolean false))) ∧ L.Has (n + 1) .makeArray 0 ∧ b = n + 2
  | .call _ name args, a, b =>
    ∃ m, Expr.ArgumentsAt L vars args a m ∧ L.CallAt name args.length m b
  | .binary _ op left right, a, b =>
    ∃ m n o, op.opcode? = some o ∧ left.At L vars a m ∧ right.At L vars m n ∧ L.Has n o 0 ∧
      b = n + 1
  | .negation _ operand, a, b => ∃ m, operand.At L vars a m ∧ L.Has m .not 0 ∧ b = m + 1

/-- The code of the arguments of a call, the last first, stands from `a` to `b`. -/
def Expr.ArgumentsAt (L : Layout) (vars : List Bytes) : List (Expr Cell) → Nat → Nat → Prop
  | [], a, b => b = a
  | e :: es, a, b => ∃ m, Expr.ArgumentsAt L vars es a m ∧ e.At L vars m b

end

/-- The slot of the index of a counting loop, which is one of its own if the index has no name. -/
def IndexAt (vars : List Bytes) (hidden : List Nat) (index : Bytes) (k : Nat) : Prop :=
  if index.isEmpty then (∃ n, slotOf vars (hiddenName n) = some k) ∧ k ∉ hidden
  else slotOf vars index = some k

/-- The slots of hidden indices inside a counting loop. -/
def hiddenWith (hidden : List Nat) (index : Bytes) (k : Nat) : List Nat :=
  if index.isEmpty then k :: hidden else hidden

mutual

/-- The code of a statement stands from `a` to `b`. A `leave` goes to the place `stop`, and `hidden`
are the slots of the hidden indices of the loops around the statement. -/
def Stmt.At (L : Layout) :
    Stmt Cell → List Bytes → Option Nat → List Nat → Nat → Nat → Prop
  | .absent, _, _, _, a, b => b = a
  | .block _ body, vars, stop, hidden, a, b => Stmt.AllAt L body vars stop hidden a b
  | .declare _ x value, vars, _, _, a, b =>
    ∃ m k, value.At L vars a m ∧ vars[k]? = some x ∧ (L.once → slotOf vars x = some k) ∧
      L.Has m .store k ∧ b = m + 1
  | .assign _ x value, vars, _, _, a, b =>
    ∃ m k, value.At L vars a m ∧ slotOf vars x = some k ∧ L.Has m .store k ∧ b = m + 1
  | .assignElement _ x row col value, vars, _, _, a, b =>
    ∃ l m n k, row.At L vars a l ∧ col.At L vars l m ∧ value.At L vars m n ∧
      slotOf vars x = some k ∧ L.Has n .writeArray k ∧ b = n + 1
  | .branch _ cond yes no, vars, stop, hidden, a, b =>
    ∃ m n, cond.At L vars a m ∧ L.Has m .jumpUnless (n + 1) ∧
      yes.At L vars stop hidden (m + 1) n ∧ L.Has n .jump b ∧ no.At L vars stop hidden (n + 1) b
  | .whileLoop _ cond body, vars, _, hidden, a, b =>
    ∃ m n, cond.At L vars a m ∧ L.Has m .jumpUnless b ∧
      body.At L vars (some b) hidden (m + 1) n ∧ L.Has n .jump a ∧ b = n + 1
  | .countLoop _ index count body, vars, _, hidden, a, b =>
    ∃ k m n, IndexAt vars hidden index k ∧ L.Pushes a (some (.integer 0)) ∧
      L.Has (a + 1) .store k ∧ L.Has (a + 2) .load k ∧ count.At L vars (a + 3) m ∧
      L.Has m .lt 0 ∧ L.Has (m + 1) .jumpUnless b ∧
      body.At L vars (some b) (hiddenWith hidden index k) (m + 2) n ∧ L.Has n .load k ∧
      L.Pushes (n + 1) (some (.integer 1)) ∧ L.Has (n + 2) .add 0 ∧ L.Has (n + 3) .store k ∧
      L.Has (n + 4) .jump (a + 2) ∧ b = n + 5
  | .leave _, _, stop, _, a, b => ∃ q, stop = some q ∧ L.Has a .jump q ∧ b = a + 1
  | .giveBack _ value, vars, _, _, a, b =>
    if value.isAbsent then L.FalseAt a b
    else ∃ m, value.At L vars a m ∧ L.Has m .ret 0 ∧ b = m + 1
  | .define _ name params body, _, stop, _, a, b =>
    ∃ vars m, L.Has a .jump b ∧ L.entry name = a + 1 ∧
      L.PrologueAt params body.slotCount vars (a + 1) ∧
      body.At L vars stop [] (a + 2 + params.length) m ∧ L.FalseAt m b
  | .perform _ name args, vars, _, _, a, b =>
    ∃ m n, Expr.ArgumentsAt L vars args a m ∧ L.CallAt name args.length m n ∧ L.Has n .pop 0 ∧
      b = n + 1

/-- The code of statements in sequence stands from `a` to `b`. -/
def Stmt.AllAt (L : Layout) :
    List (Stmt Cell) → List Bytes → Option Nat → List Nat → Nat → Nat → Prop
  | [], _, _, _, a, b => b = a
  | s :: ss, vars, stop, hidden, a, b =>
    ∃ m, s.At L vars stop hidden a m ∧ Stmt.AllAt L ss vars stop hidden m b

end

namespace Layout

variable (L : Layout)

/-- The code of a function stands from `a` to `b`. -/
def FunctionAt (d : Function) (vars : List Bytes) (stop : Option Nat) (a b : Nat) : Prop :=
  ∃ m, L.PrologueAt d.params d.body.slotCount vars a ∧
    d.body.At L vars stop [] (a + 1 + d.params.length) m ∧ L.FalseAt m b

/-- The code of a program, that of its functions included, is all the code there is. -/
def ProgramAt (t : Tree Cell) (vars : List Bytes) : Prop :=
  ∃ m, L.PrologueAt [] (Stmt.allSlotCount t.body) vars 0 ∧ Stmt.AllAt L t.body vars none [] 1 m ∧
    L.FalseAt m L.program.code.size

end Layout

end StackScript
