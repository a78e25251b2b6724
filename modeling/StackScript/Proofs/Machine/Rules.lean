import StackScript.Proofs.Evaluation.Basic
import StackScript.Proofs.Layout.Basic
import StackScript.Proofs.Machine.Steps

/-!
# What each instruction does

One rule for each operation that compiled code uses: what the next step of the machine is in a state
whose place holds the instruction and whose stack holds what it takes. An instruction that computes
does what the operation on cells of direct evaluation says, which is what `Does` states: it goes on
with the result, or fails in the same way with the world as it was.
-/

namespace StackScript

variable {col row v x y : Cell} {op : Opcode} {s : State} {o : UInt64}

/-- The failure of a program that a fault reports; other faults mean that the code is broken. -/
def Fault.failure? : Fault → Option Failure
  | notArray _ kind => some (.notArray kind)
  | indexOutOfRange e => some (.indexOutOfRange e)
  | arraySize e => some (.arraySize e)
  | divideByZero => some .divideByZero
  | missingValue => some .missingValue
  | host name e => some (.host name e)
  | _ => none

/-- The next step goes on to a state that was computed, or fails as the computation does. -/
def Does (p : Program) (hosts : Array HostFunction) (s : State) : Except Stop State → Prop
  | .ok s' => p.next hosts s = some (.ok () s')
  | .error (.failure e) =>
    ∃ f s', p.next hosts s = some (.error f s') ∧ f.failure? = some e ∧ s'.world = s.world
  | .error _ => False

variable {L : Layout} {hosts : Array HostFunction} {a n : Nat} {st : List Cell} {fr : Array Cell}
  {cs : List Caller} {w : World}

/-- The next step is what the instruction at the place does. -/
theorem Layout.Has.next (hosts : Array HostFunction) (s : State) (h : L.Has s.place op n) :
    ∃ i, L.program.next hosts s = some (step L.program hosts i s) ∧ i.op = op ∧
      i.operand.toNat = n := by
  obtain ⟨i, hi, hop, hn⟩ := h
  exact ⟨i, by rw [Program.next, hi]; rfl, hop, hn⟩

/-- An instruction stands in the program. -/
theorem Layout.Has.lt (h : L.Has a op n) : a < L.program.code.size := by
  obtain ⟨i, hi, -⟩ := h
  exact (Array.getElem?_eq_some_iff.mp hi).1

/-! ## Constants and slots -/

/-- A constant is pushed. -/
theorem next_constant {c : Cell} (h : L.Has a .constant n)
    (hc : L.program.constants[n]? = some c) :
    L.program.next hosts ⟨a, st, fr, cs, w⟩ = some (.ok () ⟨a + 1, c :: st, fr, cs, w⟩) := by
  obtain ⟨i, hi, hop, hn⟩ := h.next hosts ⟨a, st, fr, cs, w⟩
  rw [hi, step]
  simp only [hop, hn, hc]
  rfl

/-- The constant that stands for a literal is pushed. -/
theorem next_pushes (h : L.Pushes a v) :
    L.program.next hosts ⟨a, st, fr, cs, w⟩ =
      some (.ok () ⟨a + 1, entryOf L.program.constants.toList v :: st, fr, cs, w⟩) := by
  obtain ⟨k, hk, hhas⟩ := h
  exact next_constant hhas (by rw [← Array.getElem?_toList]; exact hk)

/-- The state is given. -/
theorem get_eq (s : State) : (get : Exec State) s = .ok s s := rfl

/-- The slot that an operand names is one of the frame. -/
theorem slot_eq (h : o.toNat < s.frame.size) : Exec.slot o s = .ok o.toNat s := by
  simp only [Exec.slot, bind, EStateM.bind, get_eq, h, if_true]
  rfl

/-- A slot outside the frame is a fault. -/
theorem slot_eq_error (h : ¬ o.toNat < s.frame.size) :
    Exec.slot o s = .error (.slotOutOfRange o.toNat s.frame.size) s := by
  simp only [Exec.slot, bind, EStateM.bind, get_eq, h, if_false]
  rfl

/-- The contents of a slot of the frame are pushed. -/
theorem next_load (h : L.Has a .load n) (hn : n < fr.size) :
    L.program.next hosts ⟨a, st, fr, cs, w⟩ =
      some (.ok () ⟨a + 1, fr.getD n none :: st, fr, cs, w⟩) := by
  obtain ⟨i, hi, hop, rfl⟩ := h.next hosts ⟨a, st, fr, cs, w⟩
  rw [hi, step]
  simp only [hop, bind, EStateM.bind, slot_eq (s := ⟨a, st, fr, cs, w⟩) hn]
  rfl

/-- The top of the stack is stored into a slot of the frame. -/
theorem next_store (h : L.Has a .store n) (hn : n < fr.size) :
    L.program.next hosts ⟨a, v :: st, fr, cs, w⟩ =
      some (.ok () ⟨a + 1, st, fr.setIfInBounds n v, cs, w⟩) := by
  obtain ⟨i, hi, hop, rfl⟩ := h.next hosts ⟨a, v :: st, fr, cs, w⟩
  rw [hi, step]
  simp only [hop, bind, EStateM.bind, Exec.pop, slot_eq (s := ⟨a, st, fr, cs, w⟩) hn]
  rfl

/-- An instruction on a slot outside the frame is a fault, whatever is on the stack. -/
theorem next_slot_error (h : L.Has a op n)
    (hop : op ∈ [Opcode.load, .store, .readArray, .writeArray]) (hn : ¬ n < fr.size) :
    ∃ f s', L.program.next hosts ⟨a, st, fr, cs, w⟩ = some (.error f s') := by
  obtain ⟨i, hi, hi', rfl⟩ := h.next hosts ⟨a, st, fr, cs, w⟩
  simp only [List.mem_cons, List.not_mem_nil, or_false] at hop
  have hslot : ∀ st, Exec.slot i.operand ⟨a, st, fr, cs, w⟩ = .error _ _ := fun st =>
    slot_eq_error (s := ⟨a, st, fr, cs, w⟩) hn
  rw [hi]
  rcases hop with rfl | rfl | rfl | rfl <;> rw [step] <;> simp only [hi']
  · exact ⟨_, _, by simp only [bind, EStateM.bind, hslot]; rfl⟩
  · cases st with
    | nil => exact ⟨_, _, rfl⟩
    | cons v st => exact ⟨_, _, by simp only [bind, EStateM.bind, Exec.pop, hslot]; rfl⟩
  · match st with
    | [] => exact ⟨_, _, rfl⟩
    | [v] => exact ⟨_, _, rfl⟩
    | u :: v :: st =>
      exact ⟨_, _, by simp only [Exec.element, bind, EStateM.bind, Exec.pop, hslot]; rfl⟩
  · match st with
    | [] => exact ⟨_, _, rfl⟩
    | [v] => exact ⟨_, _, rfl⟩
    | [u, v] => exact ⟨_, _, rfl⟩
    | t :: u :: v :: st =>
      exact ⟨_, _, by simp only [Exec.element, bind, EStateM.bind, Exec.pop, hslot]; rfl⟩

/-! ## Stack, jumps and functions -/

/-- The value on top is dropped. -/
theorem next_pop (h : L.Has a .pop n) :
    L.program.next hosts ⟨a, v :: st, fr, cs, w⟩ = some (.ok () ⟨a + 1, st, fr, cs, w⟩) := by
  obtain ⟨i, hi, hop, -⟩ := h.next hosts ⟨a, v :: st, fr, cs, w⟩
  rw [hi, step]
  simp only [hop]
  rfl

/-- A jump to a place of the program. -/
theorem jump_eq (h : o.toNat < L.program.code.size) :
    Exec.jump L.program o s = .ok () { s with place := o.toNat } := by
  rw [Exec.jump, if_pos h]
  rfl

/-- The program goes on at another place. -/
theorem next_jump (h : L.Has a .jump n) (hn : n < L.program.code.size) :
    L.program.next hosts ⟨a, st, fr, cs, w⟩ = some (.ok () ⟨n, st, fr, cs, w⟩) := by
  obtain ⟨i, hi, hop, rfl⟩ := h.next hosts ⟨a, st, fr, cs, w⟩
  rw [hi, step]
  simp only [hop, jump_eq hn]

/-- The program goes on behind if the top of the stack is true, and at another place otherwise. -/
theorem does_jumpUnless (h : L.Has a .jumpUnless n) (hn : n < L.program.code.size) :
    Does L.program hosts ⟨a, v :: st, fr, cs, w⟩
      (v.require.map fun x => ⟨if x.truth then a + 1 else n, st, fr, cs, w⟩) := by
  obtain ⟨i, hi, hop, rfl⟩ := h.next hosts ⟨a, v :: st, fr, cs, w⟩
  rw [step] at hi
  simp only [hop, bind, EStateM.bind, Exec.pop] at hi
  cases v with
  | none => exact ⟨_, _, hi, rfl, rfl⟩
  | some x =>
    refine hi.trans ?_
    cases hx : x.truth with
    | true => simp only [Exec.value, pure, EStateM.pure, hx]; rfl
    | false => simp [Exec.value, pure, EStateM.pure, hx, jump_eq hn]

/-- A function is called; its caller keeps the frame until the callee allocates its own. -/
theorem next_call (h : L.Has a .call n) (hn : n < L.program.code.size) :
    L.program.next hosts ⟨a, st, fr, cs, w⟩ =
      some (.ok () ⟨n, st, fr, ⟨a + 1, none⟩ :: cs, w⟩) := by
  obtain ⟨i, hi, hop, rfl⟩ := h.next hosts ⟨a, st, fr, cs, w⟩
  rw [hi, step]
  simp only [hop]
  exact congrArg some (jump_eq hn)

/-- A function returns to its caller, whose frame is in use again. -/
theorem next_ret {c : Caller} (h : L.Has a .ret n) :
    L.program.next hosts ⟨a, st, fr, c :: cs, w⟩ =
      some (.ok () ⟨c.resume, st, c.frame.getD fr, cs, w⟩) := by
  obtain ⟨i, hi, hop, -⟩ := h.next hosts ⟨a, st, fr, c :: cs, w⟩
  rw [hi, step]
  simp only [hop]
  rfl

/-- What the callers are when the latest of them keeps a frame, unless it has one already. -/
def keepFrame (fr : Array Cell) : List Caller → List Caller
  | ⟨r, none⟩ :: cs => ⟨r, some fr⟩ :: cs
  | cs => cs

/-- A frame in which every slot is false is allocated, unless it is too large. -/
theorem next_frame (h : L.Has a .frame n) :
    L.program.next hosts ⟨a, st, fr, cs, w⟩ =
      if n ≤ maxCells then
        some (.ok () ⟨a + 1, st, Array.replicate n (some (.boolean false)), keepFrame fr cs, w⟩)
      else some (.error (.frameTooLarge n) ⟨a, st, fr, cs, w⟩) := by
  obtain ⟨i, hi, hop, rfl⟩ := h.next hosts ⟨a, st, fr, cs, w⟩
  rw [hi, step]
  simp only [hop]
  by_cases hle : i.operand.toNat ≤ maxCells
  · rw [if_pos hle, if_neg (Nat.not_lt.mpr hle)]
    match cs with
    | [] => rfl
    | ⟨r, none⟩ :: cs => rfl
    | ⟨r, some f⟩ :: cs => rfl
  · rw [if_neg hle, if_pos (Nat.lt_of_not_le hle)]
    rfl

/-! ## Computing instructions -/

/-- The top of the stack is negated. -/
theorem does_not (h : L.Has a .not n) :
    Does L.program hosts ⟨a, v :: st, fr, cs, w⟩
      (v.negate.map fun x => ⟨a + 1, x :: st, fr, cs, w⟩) := by
  obtain ⟨i, hi, hop, -⟩ := h.next hosts ⟨a, v :: st, fr, cs, w⟩
  rw [step] at hi
  simp only [hop] at hi
  cases v with
  | none => exact ⟨_, _, hi, rfl, rfl⟩
  | some x => exact hi

/-- The instruction of an operator applies it. -/
theorem step_operator {op : Operator} {o : Opcode} {i : Instruction} (ho : op.opcode? = some o)
    (hop : i.op = o) :
    step L.program hosts i ⟨a, y :: x :: st, fr, cs, w⟩ =
      match op.applyCells w.store x y with
      | .ok v => .ok () ⟨a + 1, some v :: st, fr, cs, w⟩
      | .error e => .error (e.fault o.code) ⟨a, st, fr, cs, w⟩ := by
  cases hr : op.applyCells w.store x y <;> cases op <;> cases ho <;> rw [step] <;>
    simp only [hop, Opcode.operator?, bind, EStateM.bind, Exec.pop, get_eq, hr] <;> rfl

/-- An operator on two values fails for a division by zero, or because it is not defined. -/
theorem Operator.apply_eq_error {op : Operator} {store : Store} {x y : Value} {e : OperatorError}
    (h : op.apply store x y = .error e) :
    e = .divideByZero ∨ e = .undefined ∧ op.opcode? = none := by
  unfold apply at h
  split at h
  case h_4 =>
    unfold Value.div at h
    split at h
    · split at h <;> cases h
      exact .inl rfl
    · cases h
  case h_5 =>
    unfold Value.mod at h
    split at h <;> cases h
    exact .inl rfl
  case h_12 =>
    cases h
    exact .inr ⟨rfl, rfl⟩
  all_goals cases h

/-- An operator that has an instruction is defined. -/
theorem Operator.applyCells_ne_undefined {op : Operator} {o : Opcode} (ho : op.opcode? = some o)
    (store : Store) (x y : Cell) : op.applyCells store x y ≠ .error .undefined := by
  intro h
  unfold applyCells at h
  split at h
  · rcases apply_eq_error h with he | ⟨-, hnone⟩
    · cases he
    · cases ho.symm.trans hnone
  · unfold applyMissing at h
    split at h
    case h_1 => cases ho
    case h_2 => split at h <;> cases h
    case h_5 => split at h <;> cases h
    case h_6 => split at h <;> cases h
    all_goals cases h

/-- An operator is applied to the two cells on top of the stack. -/
theorem does_operator (op : Operator) {o : Opcode} (ho : op.opcode? = some o) (h : L.Has a o n) :
    Does L.program hosts ⟨a, y :: x :: st, fr, cs, w⟩
      ((op.evaluate w.store x y).map fun v => ⟨a + 1, v :: st, fr, cs, w⟩) := by
  obtain ⟨i, hi, hop, -⟩ := h.next hosts ⟨a, y :: x :: st, fr, cs, w⟩
  rw [step_operator ho hop] at hi
  rw [Operator.evaluate]
  cases hr : op.applyCells w.store x y with
  | ok v =>
    rw [hr] at hi
    exact hi
  | error e =>
    rw [hr] at hi
    cases e with
    | divideByZero => exact ⟨_, _, hi, rfl, rfl⟩
    | missing => exact ⟨_, _, hi, rfl, rfl⟩
    | undefined => exact absurd hr (Operator.applyCells_ne_undefined ho _ _ _)

/-- Finding an element pops the row and the column and does as direct evaluation does. -/
theorem element_cases (s : State) (row col : Cell) (hn : o.toNat < s.frame.size) :
    (∃ r, (s.frame.getD o.toNat none).element row col = .ok r ∧
      Exec.element o { s with stack := col :: row :: s.stack } = .ok r s) ∨
    ∃ e f, (s.frame.getD o.toNat none).element row col = .error (.failure e) ∧
      Exec.element o { s with stack := col :: row :: s.stack } = .error f s ∧
      f.failure? = some e := by
  simp only [Exec.element, bind, EStateM.bind, Exec.pop, slot_eq hn, get_eq]
  cases s.frame.getD o.toNat none with
  | none => exact .inr ⟨_, _, rfl, rfl, rfl⟩
  | some v =>
    cases v with
    | array key =>
      cases row with
      | none => exact .inr ⟨_, _, rfl, rfl, rfl⟩
      | some row =>
        cases col with
        | none => exact .inr ⟨_, _, rfl, rfl, rfl⟩
        | some col => exact .inl ⟨_, rfl, rfl⟩
    | _ => exact .inr ⟨_, _, rfl, rfl, rfl⟩

/-- A cell of the array in a slot is pushed. -/
theorem does_readArray (h : L.Has a .readArray n) (hn : n < fr.size) :
    Does L.program hosts ⟨a, col :: row :: st, fr, cs, w⟩
      (((fr.getD n none).read w.store row col).map fun v => ⟨a + 1, v :: st, fr, cs, w⟩) := by
  obtain ⟨i, hi, hop, rfl⟩ := h.next hosts ⟨a, col :: row :: st, fr, cs, w⟩
  rw [step] at hi
  simp only [hop, bind, EStateM.bind] at hi
  rw [Cell.read]
  rcases element_cases ⟨a, st, fr, cs, w⟩ row col hn with ⟨r, hr, helement⟩ |
    ⟨e, f, hr, helement, he⟩
  · simp only [helement, get_eq] at hi
    simp only [hr, bind, Except.bind]
    cases hget : (w.store.grid r.1).get r.2.1 r.2.2 with
    | ok v =>
      rw [hget] at hi
      exact hi
    | error e =>
      rw [hget] at hi
      exact ⟨_, _, hi, rfl, rfl⟩
  · rw [helement] at hi
    rw [hr]
    exact ⟨f, _, hi, he, rfl⟩

/-- A cell of the array in a slot is set to the top of the stack. -/
theorem does_writeArray (h : L.Has a .writeArray n) (hn : n < fr.size) :
    Does L.program hosts ⟨a, v :: col :: row :: st, fr, cs, w⟩
      (((fr.getD n none).write w.store row col v).map fun arrays =>
        ⟨a + 1, st, fr, cs, { w with store := arrays }⟩) := by
  obtain ⟨i, hi, hop, rfl⟩ := h.next hosts ⟨a, v :: col :: row :: st, fr, cs, w⟩
  rw [step] at hi
  simp only [hop, bind, EStateM.bind, Exec.pop] at hi
  rw [Cell.write]
  rcases element_cases ⟨a, st, fr, cs, w⟩ row col hn with ⟨r, hr, helement⟩ |
    ⟨e, f, hr, helement, he⟩
  · simp only [helement, Exec.setCell] at hi
    simp only [hr, bind, Except.bind, Store.setCell]
    cases hindex : (w.store.grid r.1).index? r.2.1 r.2.2 with
    | some k =>
      rw [hindex] at hi
      exact hi
    | none =>
      rw [hindex] at hi
      exact ⟨_, _, hi, rfl, rfl⟩
  · rw [helement] at hi
    rw [hr]
    exact ⟨f, _, hi, he, rfl⟩

/-- An array is made of the fill, the columns and the rows on top of the stack. -/
theorem does_makeArray {rows cols fill : Cell} (h : L.Has a .makeArray n) :
    Does L.program hosts ⟨a, fill :: cols :: rows :: st, fr, cs, w⟩
      ((Grid.evaluate rows cols fill).map fun g =>
        ⟨a + 1, some (.array w.store.next) :: st, fr, cs, { w with store := w.store.add g }⟩) := by
  obtain ⟨i, hi, hop, -⟩ := h.next hosts ⟨a, fill :: cols :: rows :: st, fr, cs, w⟩
  rw [step] at hi
  simp only [hop, bind, EStateM.bind, Exec.makeArray, Exec.pop] at hi
  rw [Grid.evaluate]
  cases rows with
  | none => exact ⟨_, _, hi, rfl, rfl⟩
  | some rows =>
    cases cols with
    | none => exact ⟨_, _, hi, rfl, rfl⟩
    | some cols =>
      simp only [Exec.value, pure, EStateM.pure] at hi
      simp only [Cell.require, bind, Except.bind]
      cases hmake : Grid.make rows.toIndex cols.toIndex fill with
      | ok g =>
        rw [hmake] at hi
        exact hi
      | error e =>
        rw [hmake] at hi
        exact ⟨_, _, hi, rfl, rfl⟩

/-! ## Functions of the host -/

/-- Popping arguments gives them in order. -/
theorem popMany_eq (args : List Cell) (s : State) :
    Exec.popMany args.length { s with stack := args ++ s.stack } = .ok args s := by
  induction args with
  | nil => rfl
  | cons v args ih =>
    simp only [List.length_cons, Exec.popMany, bind, EStateM.bind, List.cons_append, Exec.pop, ih]
    rfl

variable {o : Instruction} {k index : Nat} (hcode : L.program.code[a]? = some o)
  (hop : o.op = .callHost) (hunpack : HostCall.unpack o.operand = ⟨k, index⟩)
include hcode hop hunpack

/-- A function of the host is run on the arguments on top of the stack. -/
theorem next_callHost {f : HostFunction} {args : List Cell} (hf : hosts[index]? = some f)
    (hargs : args.length = k) :
    L.program.next hosts ⟨a, args ++ st, fr, cs, w⟩ =
      match f.run args w with
      | .ok v w => some (.ok () ⟨a + 1, v :: st, fr, cs, w⟩)
      | .error e w => some (.error (.host f.name e) ⟨a, st, fr, cs, w⟩) := by
  subst hargs
  rw [Program.next]
  simp only [hcode, Option.map_some, step, hop, bind, EStateM.bind, Exec.callHost, hunpack, hf,
    popMany_eq args ⟨a, st, fr, cs, w⟩]
  cases f.run args w <;> rfl

/-- A call of a function that the host does not have is a fault. -/
theorem next_callHost_error (hf : hosts[index]? = none) :
    ∃ f s', L.program.next hosts ⟨a, st, fr, cs, w⟩ = some (.error f s') := by
  refine ⟨.hostOutOfRange index, ⟨a, st, fr, cs, w⟩, ?_⟩
  rw [Program.next]
  simp only [hcode, Option.map_some, step, hop, bind, EStateM.bind, Exec.callHost, hunpack, hf]
  rfl

end StackScript
