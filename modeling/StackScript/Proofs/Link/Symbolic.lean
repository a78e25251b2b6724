import StackScript.Compile.Build
import StackScript.Proofs.Machine.Traces

/-!
# Running code that is not linked

The symbolic machine executes a stream as it was generated. Markers do nothing, a jump or a call
goes to the marker with its label, a call of a function of the host runs that function, and a call
that passes fewer arguments than its function declares first pushes false for each that is missing.
All other instructions do what they do in a linked program: they do not depend on the places of
instructions, so states that differ in places only stay so (`MovesOn.step`).
-/

namespace StackScript

/-- Whether an instruction is the marker of a label. -/
def Instruction.marksLabel (label : Bytes) (i : Instruction) : Bool :=
  i.isMarker && i.label == label

namespace Exec

/-- Goes to the marker of a label. -/
def goTo (code : List Instruction) (label : Bytes) : Exec Unit :=
  match code.findIdx? (Instruction.marksLabel label) with
  | some place => modify fun s => { s with place }
  | none => throw (.jumpOutOfRange 0)

/-- Goes elsewhere or to the next instruction, as the top of the stack says. -/
def branch (taken : Bool) (go : Exec Unit) : Exec Unit := do
  let v ← value (← pop)
  if v.truth = taken then go else next

/-- Leaves the place behind the call for the return. -/
def remember : Exec Unit := modify fun s => { s with callers := ⟨s.place + 1, none⟩ :: s.callers }

/-- Runs the host function at an index with a number of arguments. -/
def callHostAt (hosts : Array HostFunction) (index argc : Nat) : Exec Unit :=
  match hosts[index]? with
  | none => throw (.hostOutOfRange index)
  | some f => do
    let args ← popMany argc
    fun
    | ⟨place, stack, frame, callers, world⟩ =>
      match f.run args world with
      | .ok c world => .ok () ⟨place, c :: stack, frame, callers, world⟩
      | .error e world => .error (.host f.name e) ⟨place, stack, frame, callers, world⟩

end Exec

namespace Compilation

open Exec

/-- The generated code with its constants. -/
def unlinked (c : Compilation) : Program := { constants := c.pool.entries, code := c.code }

/-- What a call does that has pushed a number of false values already. It gives that number for the
next step. -/
def symbolicCall (c : Compilation) (hosts : Array HostFunction) (i : Instruction) (pushed : Nat) :
    Exec Nat :=
  match c.symbols.function? i.callee with
  | none => throw (.jumpOutOfRange 0)
  | some f =>
    if f.isHost then do
      callHostAt hosts f.dispatch i.argc.toNat
      next
      return 0
    else if pushed < (f.declared - i.argc).toNat then do
      push (some (.boolean false))
      return pushed + 1
    else do
      remember
      goTo c.code.toList i.target
      return 0

/-- What an instruction other than a call does. -/
def symbolicPlain (c : Compilation) (hosts : Array HostFunction) (i : Instruction) : Exec Unit :=
  match i.op with
  | .jump => goTo c.code.toList i.target
  | .jumpIf => branch true (goTo c.code.toList i.target)
  | .jumpUnless => branch false (goTo c.code.toList i.target)
  | _ => step c.unlinked hosts i

/-- What an instruction of generated code does. -/
def symbolicStep (c : Compilation) (hosts : Array HostFunction) (i : Instruction) (pushed : Nat) :
    Exec Nat :=
  if i.op = .call then c.symbolicCall hosts i pushed
  else do
    c.symbolicPlain hosts i
    return 0

/-- The machine that runs generated code. It remembers how many false values the call at hand has
pushed. -/
def machine (c : Compilation) (hosts : Array HostFunction) : Machine Nat where
  code := c.code
  exec := c.symbolicStep hosts

end Compilation

/-! ## States that differ in places -/

/-- A caller that goes on at another place. -/
def Caller.moved (f : Nat → Nat) (c : Caller) : Caller := { c with resume := f c.resume }

/-- A state at another place, whose callers go on where `f` takes their places. -/
def State.moved (f : Nat → Nat) (place : Nat) (s : State) : State :=
  ⟨place, s.stack, s.frame, s.callers.map (Caller.moved f), s.world⟩

/-- A moved state shows what the state shows. -/
theorem State.moved_observation (f : Nat → Nat) (place : Nat) (s : State) :
    (s.moved f place).observation = s.observation := by
  unfold observation moved
  rw [List.map_map]
  rfl

/-- The first state is at `a`, and the second is the same at `b`. -/
def MovedAt (f : Nat → Nat) (a b : Nat) (s t : State) : Prop := s.place = a ∧ t = s.moved f b

/-- The second state is the first at some place. -/
def Moved (f : Nat → Nat) (s t : State) : Prop := ∃ b, t = s.moved f b

/-- A state that is moved at a place is moved. -/
theorem MovedAt.moved {f : Nat → Nat} {a b : Nat} (s t : State) (h : MovedAt f a b s t) :
    Moved f s t := ⟨b, h.2⟩

/-- A computation that goes on by `n` places and has nothing else to do with places. -/
def MovesOn (n : Nat) (x : Exec α) : Prop :=
  ∀ f a b, Relates (MovedAt f a b) (fun v s w t => v = w ∧ MovedAt f (a + n) (b + n) s t)
    (Moved f) x x

namespace MovesOn

variable {n : Nat}

/-- A value moves nothing. -/
theorem pure (v : α) : MovesOn 0 (Pure.pure v) := fun _ _ _ => .pure fun _ _ h => ⟨rfl, h⟩

/-- A failure moves nothing. -/
theorem throw (e : Fault) : MovesOn n (MonadExcept.throw e : Exec α) :=
  fun _ _ _ => .throw e MovedAt.moved

/-- Going on moves by one. -/
theorem next : MovesOn 1 Exec.next := by
  intro f a b
  refine .modify ?_
  rintro s t ⟨rfl, rfl⟩
  exact ⟨rfl, rfl, rfl⟩

/-- Two computations behind one that has nothing to do with places. -/
theorem then_relates {f : Nat → Nat} {a b : Nat} {post : β → State → β → State → Prop}
    {x : Exec α} {g g' : α → Exec β} (hx : MovesOn 0 x)
    (hg : ∀ v, Relates (MovedAt f a b) post (Moved f) (g v) (g' v)) :
    Relates (MovedAt f a b) post (Moved f) (x >>= g) (x >>= g') := by
  refine (hx f a b).bind fun v w s t h => ?_
  obtain ⟨rfl, h⟩ := h
  exact hg v s t h

/-- A computation behind one that has nothing to do with places. -/
theorem bind {x : Exec α} {g : α → Exec β} (hx : MovesOn 0 x) (hg : ∀ v, MovesOn n (g v)) :
    MovesOn n (x >>= g) :=
  fun f a b => hx.then_relates fun v => hg v f a b

/-- Reading what does not depend on places. -/
theorem read {g : State → Exec α} (hsame : ∀ f b s, g (State.moved f b s) = g s)
    (hg : ∀ s, MovesOn n (g s)) : MovesOn n (get >>= g) := by
  intro f a b
  refine .get ?_
  rintro s t ⟨hs, rfl⟩
  rw [hsame]
  exact hg s f a b s _ ⟨hs, rfl⟩

/-- A change of the state that does not depend on places. -/
theorem modify {g : State → State} (hplace : ∀ s, (g s).place = s.place)
    (hsame : ∀ f b s, g (State.moved f b s) = (g s).moved f b) : MovesOn 0 (modify g) := by
  intro f a b
  refine .modify ?_
  rintro s t ⟨rfl, rfl⟩
  exact ⟨rfl, hplace s, hsame f b s⟩

/-- Pushing moves nothing. -/
theorem push (v : Cell) : MovesOn 0 (Exec.push v) := modify (fun _ => rfl) fun _ _ _ => rfl

/-- Popping moves nothing. -/
theorem pop : MovesOn 0 Exec.pop := by
  rintro f a b ⟨place, stack, frame, callers, world⟩ t ⟨rfl, rfl⟩
  cases stack with
  | nil => exact ⟨rfl, b, rfl⟩
  | cons v stack => exact ⟨rfl, rfl, rfl⟩

/-- Asking for a value moves nothing. -/
theorem value (v : Cell) : MovesOn 0 (Exec.value v) := by
  cases v with
  | none => exact throw _
  | some v => exact pure v

/-- Popping several moves nothing. -/
theorem popMany (n : Nat) : MovesOn 0 (Exec.popMany n) := by
  induction n with
  | zero => exact pure _
  | succ n ih => exact pop.bind fun v => ih.bind fun vs => pure _

/-- Asking for a slot moves nothing. -/
theorem slot (operand : UInt64) : MovesOn 0 (Exec.slot operand) := by
  refine read (fun _ _ _ => rfl) fun s => ?_
  simp only
  split
  · exact pure _
  · exact throw _

/-- Allocating a frame moves nothing. -/
theorem allocate (slots : Nat) : MovesOn 0 (Exec.allocate slots) := by
  refine modify (fun s => ?_) fun f b s => ?_
  · obtain ⟨place, stack, frame, callers, world⟩ := s
    rcases callers with _ | ⟨⟨resume, _ | saved⟩, callers⟩ <;> rfl
  · obtain ⟨place, stack, frame, callers, world⟩ := s
    rcases callers with _ | ⟨⟨resume, _ | saved⟩, callers⟩ <;> rfl

/-- Looking up an element moves nothing. -/
theorem element (operand : UInt64) : MovesOn 0 (Exec.element operand) := by
  refine pop.bind fun col => pop.bind fun row => (slot operand).bind fun i => ?_
  refine read (fun _ _ _ => rfl) fun s => (value _).bind fun v => ?_
  cases v with
  | array key => exact (value row).bind fun row => (value col).bind fun col => pure _
  | _ => exact throw _

/-- A host call moves nothing. -/
theorem callHostAt (hosts : Array HostFunction) (index argc : Nat) :
    MovesOn 0 (Exec.callHostAt hosts index argc) := by
  unfold Exec.callHostAt
  split
  · exact throw _
  · rename_i host _
    refine (popMany argc).bind fun args => ?_
    rintro f a b ⟨place, stack, frame, callers, world⟩ t ⟨rfl, rfl⟩
    change ResultsRelate _ _ (match host.run args world with | .ok .. => _ | .error .. => _)
      (match host.run args world with | .ok .. => _ | .error .. => _)
    cases host.run args world with
    | ok v world => exact ⟨rfl, rfl, rfl⟩
    | error e world => exact ⟨rfl, b, rfl⟩

/-- Making an array moves nothing. -/
theorem makeArray : MovesOn 0 Exec.makeArray := by
  refine pop.bind fun fill => pop.bind fun cols => pop.bind fun rows => ?_
  refine (value rows).bind fun rows => (value cols).bind fun cols => ?_
  cases Grid.make rows.toIndex cols.toIndex fill with
  | error e => exact throw _
  | ok g => exact modify (fun _ => rfl) fun _ _ _ => rfl

/-- Setting a cell moves nothing. -/
theorem setCell (key : Nat) (row col : Int) (v : Cell) :
    MovesOn 0 (Exec.setCell key row col v) := by
  rintro f a b ⟨place, stack, frame, callers, ⟨store, globals, console, generator, now⟩⟩ t
    ⟨rfl, rfl⟩
  change ResultsRelate _ _ (match (store.grid key).index? row col with | some _ => _ | none => _)
    (match (store.grid key).index? row col with | some _ => _ | none => _)
  cases (store.grid key).index? row col with
  | some i => exact ⟨rfl, rfl, rfl⟩
  | none => exact ⟨rfl, b, rfl⟩

/-- An operator goes on to the next place. -/
theorem operator (o : Operator) (code : UInt16) : MovesOn 1 (do
    let b ← Exec.pop
    let a ← Exec.pop
    match o.applyCells (← get).world.store a b with
    | .ok v =>
      Exec.push (some v)
      Exec.next
    | .error e => MonadExcept.throw (e.fault code)) := by
  refine pop.bind fun b => pop.bind fun a => read (fun _ _ _ => rfl) fun s => ?_
  split
  · exact (push _).bind fun _ => next
  · exact throw _

/-- An instruction that neither jumps nor returns goes on to the next place. -/
theorem step (p : Program) (hosts : Array HostFunction) {i : Instruction}
    (hjump : i.op.isJump = false) (hret : i.op ≠ .ret) : MovesOn 1 (step p hosts i) := by
  unfold StackScript.step
  cases hop : i.op with
  | noop => exact next
  | frame =>
    simp only
    split
    · exact throw _
    · exact (allocate _).bind fun _ => next
  | constant =>
    simp only
    split
    · exact (push _).bind fun _ => next
    · exact throw _
  | load =>
    refine (slot _).bind fun k => ?_
    exact read (fun _ _ _ => rfl) fun s => (push _).bind fun _ => next
  | store =>
    refine pop.bind fun v => (slot _).bind fun k => ?_
    refine bind ?_ fun _ => next
    exact modify (fun _ => rfl) fun _ _ _ => rfl
  | push => exact (push _).bind fun _ => next
  | pop => exact pop.bind fun _ => next
  | not => exact pop.bind fun v => (value v).bind fun v => (push _).bind fun _ => next
  | callHost => exact (callHostAt hosts _ _).bind fun _ => next
  | makeArray => exact makeArray.bind fun _ => next
  | readArray =>
    refine (element _).bind fun e => ?_
    obtain ⟨key, row, col⟩ := e
    refine read (fun _ _ _ => rfl) fun s => ?_
    split
    · exact (push _).bind fun _ => next
    · exact throw _
  | writeArray =>
    exact pop.bind fun v => (element _).bind fun e => (setCell _ _ _ v).bind fun _ => next
  | ret => exact absurd hop hret
  -- These go elsewhere, and that is excluded.
  | jump | jumpIf | jumpUnless | call =>
    rw [hop] at hjump
    cases hjump
  | undefined code => exact throw _
  | _ => exact operator _ _

end MovesOn

end StackScript
