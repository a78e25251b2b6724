import StackScript.Proofs.Layout.Entries
import StackScript.Proofs.Machine.Ensures
import StackScript.Proofs.Machine.Rules

/-!
# Activations of functions

A call leaves the frame of its caller in use until the callee allocates its own. In a program whose
functions are entered by calls only and begin with their frames (`Program.Guarded`), nothing happens
in between, so that each activation has a frame for itself. A slot of it then keeps its contents for
as long as the activation lasts and does not store into it (`StepsWithin.holds`): no call that it
makes, however long it runs and whatever it calls in turn, can reach the slot.
-/

namespace StackScript

variable {i : Instruction} {n : Nat} {w : World}

/-! ## What a step does to frames and callers -/

/-- An operation that is not for functions leads from a place to the one behind it or, if it is a
jump, to its operand. -/
def Opcode.Target (op : Opcode) (operand a b : Nat) : Prop :=
  op ≠ .jump ∧ b = a + 1 ∨ op.isBranch = true ∧ b = operand

/-- What an instruction does to the place, the frame in use and the callers. -/
inductive Instruction.Moves (i : Instruction) (s s' : State) : Prop
  /-- A frame is allocated, and the latest caller keeps the one that was in use. -/
  | enter (op : i.op = .frame) (place : s'.place = s.place + 1)
    (callers : s'.callers = keepFrame s.frame s.callers)
  /-- The top of the stack is stored into a slot. -/
  | store (v : Cell) (op : i.op = .store) (slot : i.operand.toNat < s.frame.size)
    (stack : s.stack.head? = some v) (place : s'.place = s.place + 1)
    (frame : s'.frame = s.frame.setIfInBounds i.operand.toNat v)
    (callers : s'.callers = s.callers)
  /-- A function is called. -/
  | call (op : i.op = .call) (place : s'.place = i.operand.toNat) (frame : s'.frame = s.frame)
    (callers : s'.callers = ⟨s.place + 1, none⟩ :: s.callers)
  /-- A function returns. -/
  | ret (c : Caller) (op : i.op = .ret) (callers : s.callers = c :: s'.callers)
    (place : s'.place = c.resume) (frame : s'.frame = c.frame.getD s.frame)
  /-- Anything else goes on behind the instruction or at the place that it names. -/
  | other (op : i.op ∉ [Opcode.frame, .store, .call, .ret]) (frame : s'.frame = s.frame)
    (callers : s'.callers = s.callers)
    (place : i.op.Target i.operand.toNat s.place s'.place)

/-- A state is at a place, with a frame in use and with callers. -/
def State.Stands (a : Nat) (fr : Array Cell) (cs : List Caller) (s : State) : Prop :=
  s.place = a ∧ s.frame = fr ∧ s.callers = cs

namespace Exec

variable {α : Type} {a : Nat} {fr : Array Cell} {cs : List Caller} {p : Program}
  {hosts : Array HostFunction}

/-- A computation that changes neither the place nor the frame in use nor the callers. -/
abbrev Stays (a : Nat) (fr : Array Cell) (cs : List Caller) (x : Exec α) : Prop :=
  Preserves (State.Stands a fr cs) x

/-- A computation that goes on where an operation leads, with the same frame and callers. -/
abbrev GoesOn (op : Opcode) (operand a : Nat) (fr : Array Cell) (cs : List Caller)
    (x : Exec Unit) : Prop :=
  Ensures (State.Stands a fr cs)
    (fun _ s => op.Target operand a s.place ∧ s.frame = fr ∧ s.callers = cs) (fun _ _ => True) x

namespace Stays

/-- Where a state stands is not on the stack. -/
theorem stackFree (a : Nat) (fr : Array Cell) (cs : List Caller) :
    State.StackFree (State.Stands a fr cs) := fun _ _ hs => hs

/-- A host call stays. -/
theorem callHost (operand : UInt64) : Stays a fr cs (callHost hosts operand) := by
  unfold Exec.callHost
  cases hf : hosts[(HostCall.unpack operand).index]? with
  | none =>
    simp only [hf]
    exact .throw _
  | some f =>
    simp only [hf]
    refine .bind (.popMany (stackFree a fr cs) _) fun args => ?_
    rintro ⟨place, stack, frame, callers, world⟩ hs
    simp only
    cases f.run args world with
    | ok c w => exact hs
    | error e w => trivial

/-- Making an array stays. -/
theorem makeArray : Stays a fr cs makeArray := by
  have hpop := Preserves.pop (stackFree a fr cs)
  refine hpop.bind fun fill => hpop.bind fun cols => hpop.bind fun rows => ?_
  refine .bind (.value rows) fun r => .bind (.value cols) fun c => ?_
  cases Grid.make r.toIndex c.toIndex fill with
  | error e => exact .throw _
  | ok g =>
    refine Ensures.modify ?_
    rintro ⟨place, stack, frame, callers, world⟩ hs
    exact hs

/-- Setting a cell stays. -/
theorem setCell (key : Nat) (row col : Int) (v : Cell) : Stays a fr cs (setCell key row col v) := by
  rintro ⟨place, stack, frame, callers, ⟨store, globals, console, generator, now⟩⟩ hs
  unfold Exec.setCell
  simp only
  cases (store.grid key).index? row col with
  | some k => exact hs
  | none => trivial

end Stays

namespace GoesOn

variable {op : Opcode} {operand : Nat}

/-- What goes on may stay before. -/
theorem bind {x : Exec α} {f : α → Exec Unit} (h : Stays a fr cs x)
    (hrest : ∀ v, GoesOn op operand a fr cs (f v)) : GoesOn op operand a fr cs (x >>= f) :=
  Ensures.bind h hrest

/-- What goes on may look at the state. -/
theorem get {f : State → Exec Unit} (h : ∀ s, GoesOn op operand a fr cs (f s)) :
    GoesOn op operand a fr cs (MonadState.get >>= f) := fun s hs => h s s hs

/-- A failure goes nowhere. -/
theorem throw (f : Fault) : GoesOn op operand a fr cs (MonadExcept.throw f) :=
  Ensures.throw fun _ _ => trivial

/-- What is no jump goes to the next place. -/
theorem next (h : op ≠ .jump) : GoesOn op operand a fr cs next :=
  Ensures.modify fun _ hs => ⟨.inl ⟨h, congrArg (· + 1) hs.1⟩, hs.2⟩

/-- A branch goes to its target. -/
theorem jump {target : UInt64} (h : op.isBranch = true) :
    GoesOn op target.toNat a fr cs (jump p target) :=
  Ensures.ite (fun _ => Ensures.modify fun _ hs => ⟨.inr ⟨h, rfl⟩, hs.2⟩) fun _ => throw _

end GoesOn

end Exec

section

open Exec

variable {p : Program} {hosts : Array HostFunction} {i : Instruction} {s s' : State}

/-- An instruction that is not for functions or frames goes on where its operation leads. -/
theorem step_goesOn (hop : i.op ∉ [Opcode.frame, .store, .call, .ret]) (a : Nat) (fr : Array Cell)
    (cs : List Caller) : GoesOn i.op i.operand.toNat a fr cs (step p hosts i) := by
  have hfree := Stays.stackFree a fr cs
  unfold step
  generalize i.op = op at hop
  cases op with
  | noop => exact .next (by decide)
  | frame => exact absurd (by decide) hop
  | constant =>
    cases p.constants[i.operand.toNat]? with
    | none => exact .throw _
    | some c => exact .bind (.push hfree c) fun _ => .next (by decide)
  | load =>
    exact .bind (.slot _) fun k => .get fun s => .bind (.push hfree _) fun _ => .next (by decide)
  | store => exact absurd (by decide) hop
  | push => exact .bind (.push hfree _) fun _ => .next (by decide)
  | pop => exact .bind (.pop hfree) fun _ => .next (by decide)
  | not =>
    exact .bind (.pop hfree) fun c => .bind (.value c) fun v => .bind (.push hfree _) fun _ =>
      .next (by decide)
  | jump => exact .jump rfl
  | jumpIf =>
    exact .bind (.pop hfree) fun c => .bind (.value c) fun v =>
      Ensures.ite (fun _ => GoesOn.jump rfl) fun _ => GoesOn.next (by decide)
  | jumpUnless =>
    exact .bind (.pop hfree) fun c => .bind (.value c) fun v =>
      Ensures.ite (fun _ => GoesOn.next (by decide)) fun _ => GoesOn.jump rfl
  | call => exact absurd (by decide) hop
  | ret => exact absurd (by decide) hop
  | callHost => exact .bind (Stays.callHost _) fun _ => .next (by decide)
  | makeArray => exact .bind Stays.makeArray fun _ => .next (by decide)
  | readArray =>
    refine .bind (.element hfree _) fun e => .get fun s => ?_
    obtain ⟨key, row, col⟩ := e
    cases (s.world.store.grid key).get row col with
    | ok c => exact .bind (.push hfree c) fun _ => .next (by decide)
    | error e => exact .throw _
  | writeArray =>
    refine .bind (.pop hfree) fun v => .bind (.element hfree _) fun e => ?_
    obtain ⟨key, row, col⟩ := e
    exact .bind (Stays.setCell key row col v) fun _ => .next (by decide)
  | undefined code => exact .throw _
  | _ =>
    refine .bind (.pop hfree) fun b => .bind (.pop hfree) fun a => .get fun s => ?_
    split
    · exact .bind (.push hfree _) fun _ => .next (by decide)
    · exact .throw _

/-- What a step does to the place, the frame in use and the callers. -/
theorem step_moves (h : step p hosts i s = .ok () s') : i.Moves s s' := by
  obtain ⟨place, stack, frame, callers, world⟩ := s
  -- Four operations change the frame or the callers; all others go on as `step_goesOn` says.
  by_cases hop : i.op ∈ [Opcode.frame, .store, .call, .ret]
  · rw [step] at h
    simp only [List.mem_cons, List.not_mem_nil, or_false] at hop
    rcases hop with hop | hop | hop | hop
    · rw [hop] at h
      simp only at h
      split at h
      · cases h
      · rcases callers with _ | ⟨⟨resume, _ | kept⟩, callers⟩ <;> cases h <;>
          exact .enter hop rfl rfl
    · rw [hop] at h
      rcases stack with _ | ⟨v, stack⟩
      · cases h
      · by_cases hslot : i.operand.toNat < frame.size
        · simp only [bind, EStateM.bind, Exec.pop,
            slot_eq (s := ⟨place, stack, frame, callers, world⟩) hslot] at h
          cases h
          exact .store v hop hslot rfl rfl rfl rfl
        · simp only [bind, EStateM.bind, Exec.pop,
            slot_eq_error (s := ⟨place, stack, frame, callers, world⟩) hslot] at h
          cases h
    · rw [hop] at h
      by_cases hlt : i.operand.toNat < p.code.size
      · simp only [Exec.jump, if_pos hlt] at h
        cases h
        exact .call hop rfl rfl rfl
      · simp only [Exec.jump, if_neg hlt] at h
        cases h
    · rw [hop] at h
      rcases callers with _ | ⟨c, callers⟩
      · cases h
      · cases h
        exact .ret c hop rfl rfl rfl
  · have hstep : GoesOn i.op i.operand.toNat place frame callers (step p hosts i) :=
      step_goesOn hop place frame callers
    have hgoes := hstep ⟨place, stack, frame, callers, world⟩ ⟨rfl, rfl, rfl⟩
    rw [h] at hgoes
    exact .other hop hgoes.2.1 hgoes.2.2 hgoes.1

namespace Instruction.Moves

/-- A frame is kept by its caller. -/
theorem of_frame (h : i.Moves s s') (hop : i.op = .frame) :
    s'.place = s.place + 1 ∧ s'.callers = keepFrame s.frame s.callers := by
  cases h with
  | enter _ hplace hcallers => exact ⟨hplace, hcallers⟩
  | store _ hop' => exact absurd (hop'.symm.trans hop) (by decide)
  | call hop' => exact absurd (hop'.symm.trans hop) (by decide)
  | ret _ hop' => exact absurd (hop'.symm.trans hop) (by decide)
  | other hop' => exact absurd (by simp [hop]) hop'

/-- A store sets its slot to the value on top. -/
theorem of_store (h : i.Moves s s') (hop : i.op = .store) :
    ∃ v, s.stack.head? = some v ∧ i.operand.toNat < s.frame.size ∧
      s'.frame = s.frame.setIfInBounds i.operand.toNat v ∧ s'.callers = s.callers := by
  cases h with
  | enter hop' => exact absurd (hop'.symm.trans hop) (by decide)
  | store v _ hslot hstack _ hframe hcallers => exact ⟨v, hstack, hslot, hframe, hcallers⟩
  | call hop' => exact absurd (hop'.symm.trans hop) (by decide)
  | ret _ hop' => exact absurd (hop'.symm.trans hop) (by decide)
  | other hop' => exact absurd (by simp [hop]) hop'

end Instruction.Moves

/-- A step is a move of the instruction at hand. -/
theorem Program.next_moves (h : p.next hosts s = some (.ok () s')) :
    ∃ i, p.code[s.place]? = some i ∧ i.Moves s s' := by
  obtain ⟨i, hi, hstep⟩ := Option.map_eq_some_iff.mp h
  exact ⟨i, hi, step_moves hstep⟩

end

/-! ## Functions that are entered by calls only -/

/-- A caller has its frame kept for it, and does not go on at the beginning of a function. -/
structure Caller.Kept (p : Program) (c : Caller) : Prop where
  frame : ∃ fr, c.frame = some fr
  resume : ¬ p.IsEntry c.resume

/-- The frame in use is that of the latest call, except at the beginning of a function, where it is
that of the caller. -/
inductive State.Settled (p : Program) (s : State) : Prop
  | inside (place : ¬ p.IsEntry s.place) (callers : ∀ c ∈ s.callers, c.Kept p)
  | entering (place : p.IsEntry s.place) (resume : Nat) (cs : List Caller)
    (callers : s.callers = ⟨resume, none⟩ :: cs) (hresume : ¬ p.IsEntry resume)
    (kept : ∀ c ∈ cs, c.Kept p)

section

variable {p : Program} {hosts : Array HostFunction} {s s' : State}

/-- An instruction other than a frame is inside a function. -/
theorem State.Settled.callers_kept (h : s.Settled p) (hi : p.code[s.place]? = some i)
    (hop : i.op ≠ .frame) : ∀ c ∈ s.callers, c.Kept p := by
  cases h with
  | inside hplace hcallers => exact hcallers
  | entering hplace =>
    obtain ⟨o, ho, hframe⟩ := hplace
    rw [hi] at ho
    cases ho
    exact absurd hframe hop

/-- No function begins while every caller has its frame. -/
theorem State.Settled.op_ne_frame (h : s.Settled p) (hcs : ∀ c ∈ s.callers, c.Kept p)
    (hi : p.code[s.place]? = some i) : i.op ≠ .frame := by
  intro hop
  cases h with
  | inside hnot => exact hnot ⟨i, hi, hop⟩
  | entering _ resume cs hcallers =>
    obtain ⟨fr, hfr⟩ := (hcs ⟨resume, none⟩ (by simp [hcallers])).frame
    cases hfr

/-- Where an operation leads that is not for functions, no function begins. -/
theorem Program.Guarded.target (h : p.Guarded) {a b : Nat} (hi : p.code[a]? = some i)
    (hb : i.op.Target i.operand.toNat a b) : ¬ p.IsEntry b := by
  rcases hb with ⟨hop, rfl⟩ | ⟨hop, rfl⟩
  · exact (h.code a i hi).behind hop
  · exact (h.code a i hi).branch hop

/-- A step keeps the frames apart. -/
theorem State.Settled.next (hp : p.Guarded) (hs : s.Settled p)
    (h : p.next hosts s = some (.ok () s')) : s'.Settled p := by
  obtain ⟨i, hi, hmoves⟩ := Program.next_moves h
  cases hmoves with
  | enter hop hplace hcallers =>
    have hbehind := (hp.code _ i hi).behind (by rw [hop]; decide)
    refine .inside (hplace ▸ hbehind) ?_
    rw [hcallers]
    -- The frame that was in use is that of the caller, which keeps it now.
    cases hs with
    | inside hnot => exact absurd ⟨i, hi, hop⟩ hnot
    | entering _ resume cs hcs hresume hkept =>
      rw [hcs]
      exact List.forall_mem_cons.mpr ⟨⟨⟨s.frame, rfl⟩, hresume⟩, hkept⟩
  | store v hop _ _ hplace _ hcallers =>
    refine .inside ?_ ?_
    · rw [hplace]
      exact (hp.code _ i hi).behind (by rw [hop]; decide)
    · rw [hcallers]
      exact hs.callers_kept hi (by rw [hop]; decide)
  | call hop hplace _ hcallers =>
    refine .entering ?_ _ _ hcallers ?_ ?_
    · rw [hplace]
      exact (hp.code _ i hi).call hop
    · exact (hp.code _ i hi).behind (by rw [hop]; decide)
    · exact hs.callers_kept hi (by rw [hop]; decide)
  | ret c hop hcallers hplace _ =>
    have hkept := hs.callers_kept hi (by rw [hop]; decide)
    rw [hcallers, List.forall_mem_cons] at hkept
    exact .inside (hplace ▸ hkept.1.resume) hkept.2
  | other hop _ hcallers hplace =>
    refine .inside (hp.target hi hplace) ?_
    rw [hcallers]
    exact hs.callers_kept hi fun hframe => hop (by simp [hframe])

/-- The first step of a program allocates the frame of the statements outside all functions. -/
theorem Program.Guarded.next_start (hp : p.Guarded)
    (h : p.next hosts (State.start p.code.size w) = some (.ok () s)) :
    ∃ o, p.code[0]? = some o ∧ o.op = .frame ∧ s.place = 1 ∧
      s.callers = [⟨p.code.size, some #[]⟩] := by
  obtain ⟨i, hi, hmoves⟩ := Program.next_moves h
  obtain ⟨o, ho, hframe⟩ := hp.start
  obtain rfl : o = i := Option.some.inj (ho.symm.trans hi)
  exact ⟨o, ho, hframe, hmoves.of_frame hframe⟩

/-- A state is settled after the first step. -/
theorem State.Settled.start (hp : p.Guarded)
    (h : p.next hosts (State.start p.code.size w) = some (.ok () s)) : s.Settled p := by
  obtain ⟨o, ho, hframe, hplace, hcallers⟩ := hp.next_start h
  refine .inside ?_ ?_
  · rw [hplace]
    exact (hp.code 0 _ ho).behind (by rw [hframe]; decide)
  · rw [hcallers]
    -- The program returns to the place behind its last instruction.
    refine List.forall_mem_singleton.mpr ⟨⟨#[], rfl⟩, ?_⟩
    rintro ⟨i, hi, -⟩
    rw [Array.getElem?_eq_none (Nat.le_refl _)] at hi
    cases hi

/-- Steps keep the frames apart. -/
theorem State.Settled.steps (hp : p.Guarded) (hs : s.Settled p) (h : Steps p hosts n s s') :
    s'.Settled p := by
  induction n generalizing s with
  | zero =>
    cases h
    exact hs
  | succ n ih =>
    obtain ⟨m, hm, hrest⟩ := h
    exact ih (hs.next hp hm) hrest

/-- Frames are apart in every state that a program reaches, where the frame of the program is
allocated. -/
theorem State.Settled.reached (hp : p.Guarded) (h : Steps p hosts n (State.start p.code.size w) s)
    (hs : ¬ p.IsEntry s.place) : s.Settled p := by
  cases n with
  | zero =>
    cases h
    exact absurd hp.start hs
  | succ n =>
    obtain ⟨m, hm, hrest⟩ := h
    exact (State.Settled.start hp hm).steps hp hrest

end

/-! ## Slots of one activation -/

/-- The instruction at a place stores into a slot. -/
def Program.StoresInto (p : Program) (slot place : Nat) : Prop :=
  ∃ i, p.code[place]? = some i ∧ i.op = .store ∧ i.operand.toNat = slot

/-- A number of steps lead from one state to another; none begins with fewer than `depth` callers,
and none that begins with so many stores into a slot. -/
def StepsWithin (p : Program) (hosts : Array HostFunction) (depth slot : Nat) :
    Nat → State → State → Prop
  | 0, s, s' => s' = s
  | n + 1, s, s' =>
    (depth ≤ s.callers.length ∧ (s.callers.length = depth → ¬ p.StoresInto slot s.place)) ∧
      ∃ m, p.next hosts s = some (.ok () m) ∧ StepsWithin p hosts depth slot n m s'

instance (p : Program) (slot place : Nat) : Decidable (p.StoresInto slot place) :=
  decidable_of_iff
    (p.code[place]?.any (fun i => i.op == .store && i.operand.toNat == slot) = true) (by
      simp [Program.StoresInto, Option.any_eq_true])

/-- The first of several steps, to a state with a property. -/
theorem StepsWithin.exists_succ_iff {p : Program} {hosts : Array HostFunction} {depth slot : Nat}
    {s : State} {post : State → Prop} :
    (∃ s', StepsWithin p hosts depth slot (n + 1) s s' ∧ post s') ↔
      (depth ≤ s.callers.length ∧ (s.callers.length = depth → ¬ p.StoresInto slot s.place)) ∧
        ∃ m, Steps p hosts 1 s m ∧ ∃ s', StepsWithin p hosts depth slot n m s' ∧ post s' := by
  constructor
  · rintro ⟨s', ⟨hwithin, m, hm, hrest⟩, hpost⟩
    exact ⟨hwithin, m, .single hm, s', hrest, hpost⟩
  · rintro ⟨hwithin, m, ⟨_, hm, rfl⟩, s', hrest, hpost⟩
    exact ⟨s', ⟨hwithin, _, hm, hrest⟩, hpost⟩

/-- Whether such steps lead to a state with a property can be computed. -/
instance StepsWithin.decidable {p : Program} {hosts : Array HostFunction} {depth slot : Nat}
    (post : State → Prop) [DecidablePred post] :
    (n : Nat) → (s : State) → Decidable (∃ s', StepsWithin p hosts depth slot n s s' ∧ post s')
  | 0, s => decidable_of_iff (post s) (by simp [StepsWithin])
  | n + 1, s =>
    have (m : State) : Decidable (∃ s', StepsWithin p hosts depth slot n m s' ∧ post s') :=
      StepsWithin.decidable post n m
    decidable_of_iff _ exists_succ_iff.symm

/-- A slot of the activation that has the given callers has some contents. -/
inductive State.Holds (cs : List Caller) (slot : Nat) (v : Option Cell) (s : State) : Prop
  /-- The activation is the latest. -/
  | own (callers : s.callers = cs) (frame : s.frame[slot]? = v)
  /-- It has called a function that has no frame yet. -/
  | lent (resume : Nat) (callers : s.callers = ⟨resume, none⟩ :: cs) (frame : s.frame[slot]? = v)
  /-- Its frame is kept for it. -/
  | kept (above : List Caller) (resume : Nat) (fr : Array Cell)
    (callers : s.callers = above ++ ⟨resume, some fr⟩ :: cs) (frame : fr[slot]? = v)

section

variable {p : Program} {hosts : Array HostFunction} {s s' : State} {cs : List Caller} {slot : Nat}
  {v : Option Cell}

/-- Keeping a frame for the latest caller leaves a caller whose frame is kept. -/
theorem keepFrame_append (fr fr' : Array Cell) (above : List Caller) (resume : Nat) :
    ∃ above', keepFrame fr (above ++ ⟨resume, some fr'⟩ :: cs) =
      above' ++ ⟨resume, some fr'⟩ :: cs := by
  rcases above with _ | ⟨⟨r, _ | kept⟩, above⟩
  · exact ⟨[], rfl⟩
  · exact ⟨⟨r, some fr⟩ :: above, rfl⟩
  · exact ⟨⟨r, some kept⟩ :: above, rfl⟩

/-- A step keeps what a slot of an activation holds, unless it ends the activation or is a store
into the slot by it. -/
theorem State.Holds.next (hs : s.Settled p) (hcs : ∀ c ∈ cs, c.Kept p)
    (hstore : s.callers.length = cs.length → ¬ p.StoresInto slot s.place)
    (h : p.next hosts s = some (.ok () s')) (hdepth : cs.length ≤ s'.callers.length)
    (hholds : s.Holds cs slot v) : s'.Holds cs slot v := by
  obtain ⟨i, hi, hmoves⟩ := Program.next_moves h
  cases hholds with
  | own hcallers hframe =>
    cases hmoves with
    | enter hop => exact absurd hop (hs.op_ne_frame (hcallers ▸ hcs) hi)
    | store u hop _ _ _ hframe' hcallers' =>
      refine .own (hcallers'.trans hcallers) ?_
      rw [hframe', Array.getElem?_setIfInBounds_ne, hframe]
      rintro rfl
      exact hstore (by rw [hcallers]) ⟨i, hi, hop, rfl⟩
    | call _ _ hframe' hcallers' =>
      exact .lent _ (hcallers ▸ hcallers') (hframe' ▸ hframe)
    | ret c _ hcallers' =>
      rw [← hcallers, hcallers', List.length_cons] at hdepth
      omega
    | other _ hframe' hcallers' => exact .own (hcallers'.trans hcallers) (hframe' ▸ hframe)
  | lent resume hcallers hframe =>
    -- The callee is at its beginning, so that its frame comes next.
    have hop : i.op = .frame := by
      by_contra hop
      obtain ⟨fr, hfr⟩ := (hs.callers_kept hi hop ⟨resume, none⟩ (by simp [hcallers])).frame
      cases hfr
    refine .kept [] resume s.frame ?_ hframe
    rw [(hmoves.of_frame hop).2, hcallers]
    rfl
  | kept above resume fr hcallers hframe =>
    cases hmoves with
    | enter _ _ hcallers' =>
      obtain ⟨above', habove⟩ := keepFrame_append s.frame fr above resume
      exact .kept above' resume fr (by rw [hcallers', hcallers, habove]) hframe
    | store _ _ _ _ _ _ hcallers' => exact .kept above resume fr (hcallers'.trans hcallers) hframe
    | call _ _ _ hcallers' =>
      exact .kept (⟨s.place + 1, none⟩ :: above) resume fr (by rw [hcallers', hcallers]; rfl) hframe
    | ret c _ hcallers' _ hframe' =>
      rw [hcallers] at hcallers'
      cases above with
      | nil =>
        obtain ⟨rfl, hrest⟩ := List.cons.inj hcallers'
        exact .own hrest.symm (hframe' ▸ hframe)
      | cons c' above => exact .kept above resume fr (List.cons.inj hcallers').2.symm hframe
    | other _ _ hcallers' => exact .kept above resume fr (hcallers'.trans hcallers) hframe

/-- What a slot of an activation holds, it holds for as long as the activation lasts and does not
store into it. -/
theorem StepsWithin.holds (hp : p.Guarded) (hcs : ∀ c ∈ cs, c.Kept p)
    (h : StepsWithin p hosts cs.length slot n s s') (hdepth : cs.length ≤ s'.callers.length)
    (hs : s.Settled p) (hholds : s.Holds cs slot v) : s'.Holds cs slot v := by
  induction n generalizing s with
  | zero =>
    cases h
    exact hholds
  | succ n ih =>
    obtain ⟨⟨-, hstore⟩, m, hm, hrest⟩ := h
    refine ih hrest (hs.next hp hm) (hholds.next hs hcs hstore hm ?_)
    -- The next step, or the end, is in the activation too.
    cases n with
    | zero =>
      cases hrest
      exact hdepth
    | succ n => exact hrest.1.1

/-- What an activation finds in a slot, when it has stored once and then not into the slot. -/
theorem StepsWithin.frame_of_store (hp : p.Guarded) (hs : s.Settled p)
    (hi : p.code[s.place]? = some i) (hop : i.op = .store) {s₁ : State}
    (hnext : p.next hosts s = some (.ok () s₁))
    (h : StepsWithin p hosts s₁.callers.length slot n s₁ s')
    (hdepth : s'.callers.length = s₁.callers.length) :
    ∃ v, s.stack.head? = some v ∧ i.operand.toNat < s.frame.size ∧
      s'.frame[slot]? = (s.frame.setIfInBounds i.operand.toNat v)[slot]? := by
  obtain ⟨o, ho, hmoves⟩ := Program.next_moves hnext
  rw [hi] at ho
  cases ho
  obtain ⟨v, hstack, hslot, hframe, hcallers⟩ := hmoves.of_store hop
  have hkept := hs.callers_kept hi (by rw [hop]; decide)
  rw [← hcallers] at hkept
  refine ⟨v, hstack, hslot, ?_⟩
  rw [← hframe]
  -- Back at the depth of the store the activation is the latest.
  cases h.holds hp hkept (Nat.le_of_eq hdepth.symm) (hs.next hp hnext) (.own rfl rfl) with
  | own _ hheld => exact hheld
  | lent resume hcs => simp [hcs] at hdepth
  | kept above resume fr hcs =>
    rw [hcs, List.length_append, List.length_cons] at hdepth
    omega

end

end StackScript
