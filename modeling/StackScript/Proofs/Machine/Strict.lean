import StackScript.Proofs.Machine.Soundness

/-!
# The strict machine

The machine makes do where something is not there: a slot, a cell or an array outside of what there
is reads as missing, and the check in front of an access is all that keeps it from happening. The
strict machine does the same instructions, but every access to a constant, a slot, a host function,
an array, a cell and an instruction is one that can find nothing. Then it breaks down, and it does
so as well where a value is missing.

From a sound state the strict machine does exactly what the machine does, so it never breaks down:
every access that is made finds what it looks for.
-/

namespace StackScript

variable {hosts : Array HostFunction} {s s' : State} {operand : UInt64}

/-- Computations of the strict machine. They fail for a reason of the machine, or break down without
one. -/
abbrev Strict := EStateM (Option Fault) State

namespace Strict

variable {α β : Type}

/-- What the strict machine makes of a failure: a missing value breaks it down. -/
def failure (f : Fault) : Option Fault := if f.isProper then some f else none

/-- A computation of the machine that makes no access. -/
def lift (x : Exec α) : Strict α := fun s =>
  match x s with
  | .ok a s => .ok a s
  | .error f s => .error (failure f) s

/-- What an access finds. -/
def found : Option α → Strict α
  | some a => return a
  | none => throw none

/-- Pops a row and a column and finds the array in a slot. -/
def element (operand : UInt64) : Strict (Nat × Int × Int) := do
  let col ← lift Exec.pop
  let row ← lift Exec.pop
  let k ← lift (Exec.slot operand)
  let cell ← found (← get).frame[k]?
  match ← found cell with
  | .array key =>
    let row ← found row
    let col ← found col
    return (key, row.toIndex, col.toIndex)
  | v => throw (some (.notArray k v.kind))

/-- Finds the place of a row and a column among the cells of an array, and what is there. -/
def cell (key : Nat) (row col : Int) : Strict (Nat × Cell) := do
  let g ← found (← get).world.store.grids[key]?
  match g.index? row col with
  | some i => return (i, ← found g.cells[i]?)
  | none => throw (some (.indexOutOfRange ⟨row, col, g.rows, g.cols⟩))

/-- Calls a host function with the cells on top of the stack. -/
def call (f : HostFunction) (argc : Nat) : Exec Unit := do
  let args ← Exec.popMany argc
  fun
  | ⟨place, stack, frame, callers, world⟩ =>
    match f.run args world with
    | .ok c world => .ok () ⟨place, c :: stack, frame, callers, world⟩
    | .error e world => .error (.host f.name e) ⟨place, stack, frame, callers, world⟩

/-- What an instruction does in the strict machine. -/
def step (p : Program) (hosts : Array HostFunction) (i : Instruction) : Strict Unit :=
  match i.op with
  | .constant =>
    if i.operand.toNat < p.constants.size then do
      let c ← found p.constants[i.operand.toNat]?
      lift (do Exec.push c; Exec.next)
    else throw (some (.constantOutOfRange i.operand.toNat))
  | .load => do
    let k ← lift (Exec.slot i.operand)
    let c ← found (← get).frame[k]?
    lift (do Exec.push c; Exec.next)
  | .store => do
    let c ← lift Exec.pop
    let k ← lift (Exec.slot i.operand)
    let _ ← found (← get).frame[k]?
    modify fun s => { s with frame := s.frame.setIfInBounds k c }
    lift Exec.next
  | .callHost =>
    let call := HostCall.unpack i.operand
    if call.index < hosts.size then do
      let f ← found hosts[call.index]?
      lift (do Strict.call f call.argc; Exec.next)
    else throw (some (.hostOutOfRange call.index))
  | .readArray => do
    let (key, row, col) ← element i.operand
    let (_, c) ← cell key row col
    lift (do Exec.push c; Exec.next)
  | .writeArray => do
    let v ← lift Exec.pop
    let (key, row, col) ← element i.operand
    let (k, _) ← cell key row col
    modify fun s =>
      { s with world.store := ⟨s.world.store.grids.modify key fun g => g.put k v⟩ }
    lift Exec.next
  | _ => lift (StackScript.step p hosts i)

/-- The result of a run of the strict machine at the end of the program. -/
def result (s : State) : EStateM.Result (Option RunError) State Int64 :=
  match Exec.pop s with
  | .ok (some v) s => .ok v.toReal.toInt64 s
  | .ok none s => .error none s
  | .error _ s => .error (some .noResult) s

/-- Executes at most `fuel` instructions in the strict machine. It fetches one unless it is at the
end of the program. -/
def runWithin (p : Program) (hosts : Array HostFunction) :
    Nat → State → EStateM.Result (Option RunError) State Int64
  | fuel, s =>
    if s.place = p.code.size then result s
    else
      match p.code[s.place]? with
      | none => .error none s
      | some i =>
        match fuel with
        | 0 => .error (some .cancelled) s
        | fuel + 1 =>
          match step p hosts i s with
          | .ok _ s' => runWithin p hosts fuel s'
          | .error f s' => .error (f.map (.fault s.place i)) s'

/-- Runs a program in the strict machine for at most a number of blocks of instructions. -/
def run (p : Program) (hosts : Array HostFunction) (blocks : Nat) (world : World) :
    EStateM.Result (Option RunError) State Int64 :=
  runWithin p hosts (blocks * blockSize) (State.start p.code.size world)

/-! ## Agreement -/

/-- What gives a value does so strictly. -/
theorem lift_ok {x : Exec α} {a : α} (h : x s = .ok a s') : lift x s = .ok a s' := by
  unfold lift
  rw [h]

/-- What fails does so strictly. -/
theorem lift_error {x : Exec α} {f : Fault} (h : x s = .error f s') :
    lift x s = .error (failure f) s' := by
  unfold lift
  rw [h]

/-- What gives a value strictly gives it. -/
theorem eq_ok_of_lift {x : Exec α} {a : α} (h : lift x s = .ok a s') : x s = .ok a s' := by
  cases hx : x s with
  | ok b r =>
    rw [lift_ok hx] at h
    cases h
    rfl
  | error f r =>
    rw [lift_error hx] at h
    cases h

/-- A sequence is strict part by part. -/
theorem lift_bind (x : Exec α) (f : α → Exec β) (s : State) :
    lift (x >>= f) s = (lift x >>= fun a => lift (f a)) s := by
  cases hx : x s with
  | ok a s' =>
    have hfirst : (x >>= f) s = f a s' := by
      simp only [bind, EStateM.bind, hx]
    simp only [bind, EStateM.bind, lift_ok hx]
    unfold lift
    rw [← hfirst]
    rfl
  | error e s' =>
    have hfirst : (x >>= f) s = .error e s' := by
      simp only [bind, EStateM.bind, hx]
    rw [lift_error hfirst]
    simp only [bind, EStateM.bind, lift_error hx]

/-- What is behind an equal beginning may be compared where that ends. -/
theorem bind_congr {x : Strict α} {f g : α → Strict β}
    (h : ∀ a s', x s = .ok a s' → f a s' = g a s') : (x >>= f) s = (x >>= g) s := by
  change EStateM.bind x f s = EStateM.bind x g s
  unfold EStateM.bind
  cases hx : x s with
  | ok a s' => exact h a s' hx
  | error e s' => rfl

/-- A slot that is there is found. -/
theorem found_slot {k : Nat} (h : lift (Exec.slot operand) s = .ok k s') :
    s' = s ∧ s.frame[k]? = some (s.frame.getD k none) := by
  by_cases hlt : operand.toNat < s.frame.size
  · rw [lift_ok (slot_eq hlt)] at h
    cases h
    refine ⟨rfl, ?_⟩
    rw [Array.getD_eq_getD_getElem?, Array.getElem?_eq_getElem hlt]
    rfl
  · rw [lift_error (slot_eq_error hlt)] at h
    cases h

/-- The state is looked at. -/
theorem get_bind (f : State → Strict α) (s : State) : (get >>= f) s = f s s := rfl

/-- The state is looked at. -/
theorem lift_get_bind (f : State → Exec α) (s : State) : lift (get >>= f) s = lift (f s) s := rfl

/-- What is found is used. -/
theorem found_bind (a : α) (f : α → Strict β) (s : State) : (found (some a) >>= f) s = f a s := rfl

/-- The array in a slot is found as the machine finds it. -/
theorem element_eq (operand : UInt64) : element operand = lift (Exec.element operand) := by
  funext s
  unfold element Exec.element
  rw [lift_bind]
  refine bind_congr fun col s₁ _ => ?_
  rw [lift_bind]
  refine bind_congr fun row s₂ _ => ?_
  rw [lift_bind]
  refine bind_congr fun k s₃ hk => ?_
  obtain ⟨rfl, hslot⟩ := found_slot hk
  rw [get_bind, lift_get_bind, hslot, found_bind, lift_bind]
  generalize hcell : s₃.frame.getD k none = c
  cases c with
  | none => rfl
  | some v =>
    cases v with
    | array key => cases row <;> cases col <;> rfl
    | _ => rfl

/-- A host function that is there is called. -/
theorem callHost_of_some {f : HostFunction}
    (hf : hosts[(HostCall.unpack operand).index]? = some f) :
    Exec.callHost hosts operand = call f (HostCall.unpack operand).argc := by
  unfold Exec.callHost
  simp only
  split
  · rename_i hnone
    rw [hf] at hnone
    cases hnone
  · rename_i g hg
    rw [hf] at hg
    cases hg
    rfl

/-- A host function that is missing fails. -/
theorem callHost_of_none (hf : hosts[(HostCall.unpack operand).index]? = none) :
    Exec.callHost hosts operand = throw (.hostOutOfRange (HostCall.unpack operand).index) := by
  unfold Exec.callHost
  simp only [hf]

section Cells

variable {size last n key : Nat} {s : State} {row col : Int}

/-- In a sound state the array with a key is found, and so is a cell of it. -/
theorem cell_ok (hs : s.Sound size last n) (hkey : key < n) {i : Nat}
    (hi : (s.world.store.grid key).index? row col = some i) :
    cell key row col s = .ok (i, (s.world.store.grid key).cells.getD i none) s := by
  obtain ⟨hfound, -⟩ := hs.world.store.grid hkey
  have hcell : (s.world.store.grid key).cells[i]? =
      some ((s.world.store.grid key).cells.getD i none) := by
    rw [Array.getD_eq_getD_getElem?, Array.getElem?_eq_getElem (Grid.index?_lt hi)]
    rfl
  unfold cell
  rw [get_bind, hfound, found_bind]
  simp only [hi, hcell]
  rfl

/-- A cell outside a grid fails. -/
theorem cell_error (hs : s.Sound size last n) (hkey : key < n)
    (hi : (s.world.store.grid key).index? row col = none) :
    cell key row col s = .error (some (.indexOutOfRange ⟨row, col, (s.world.store.grid key).rows,
      (s.world.store.grid key).cols⟩)) s := by
  obtain ⟨hfound, -⟩ := hs.world.store.grid hkey
  unfold cell
  rw [get_bind, hfound, found_bind]
  simp only [hi]
  rfl

end Cells

variable {p : Program} {hosts : Array HostFunction} {size last n : Nat}

/-- What is kept from a computation of the machine. -/
theorem sound_of_lift {values : α → Prop} {x : Exec α} {a : α}
    (hx : Exec.Keeps size last n values x) (hs : s.Sound size last n) (h : lift x s = .ok a s') :
    values a ∧ s'.Sound size last n := by
  have hresult := hx s hs
  rw [eq_ok_of_lift h] at hresult
  exact hresult

/-- In a sound state the strict machine does what the machine does. -/
theorem step_eq_lift (hs : s.Sound size last n) (i : Instruction) :
    step p hosts i s = lift (StackScript.step p hosts i) s := by
  cases hop : i.op
  case constant =>
    simp only [step, StackScript.step, hop]
    by_cases hlt : i.operand.toNat < p.constants.size
    · rw [if_pos hlt, Array.getElem?_eq_getElem hlt]
      rfl
    · rw [if_neg hlt, Array.getElem?_eq_none (Nat.not_lt.mp hlt)]
      rfl
  case load =>
    simp only [step, StackScript.step, hop]
    rw [lift_bind]
    refine bind_congr fun k s' hk => ?_
    obtain ⟨rfl, hslot⟩ := found_slot hk
    rw [get_bind, lift_get_bind, hslot, found_bind]
  case store =>
    simp only [step, StackScript.step, hop]
    rw [lift_bind]
    refine bind_congr fun c s₁ _ => ?_
    rw [lift_bind]
    refine bind_congr fun k s₂ hk => ?_
    obtain ⟨rfl, hslot⟩ := found_slot hk
    rw [get_bind, hslot, found_bind, lift_bind]
    rfl
  case callHost =>
    simp only [step, StackScript.step, hop]
    by_cases hlt : (HostCall.unpack i.operand).index < hosts.size
    · have hf := Array.getElem?_eq_getElem hlt
      rw [if_pos hlt, callHost_of_some hf, hf, found_bind]
    · rw [if_neg hlt, callHost_of_none (Array.getElem?_eq_none (Nat.not_lt.mp hlt))]
      rfl
  case readArray =>
    simp only [step, StackScript.step, hop]
    rw [lift_bind, element_eq]
    refine bind_congr fun e s' he => ?_
    -- A sound state has an array for every key in it, so the strict look-up does not break down.
    obtain ⟨hkey, hs'⟩ := sound_of_lift (Exec.element_keeps _) hs he
    obtain ⟨key, row, col⟩ := e
    rw [lift_get_bind]
    unfold Grid.get
    cases hi : (s'.world.store.grid key).index? row col with
    | some k => simp only [bind, EStateM.bind, cell_ok hs' hkey hi]
    | none =>
      simp only [bind, EStateM.bind, cell_error hs' hkey hi]
      rfl
  case writeArray =>
    simp only [step, StackScript.step, hop]
    rw [lift_bind]
    refine bind_congr fun v s₁ hv => ?_
    obtain ⟨-, hs₁⟩ := sound_of_lift Exec.pop_keeps hs hv
    rw [lift_bind, element_eq]
    refine bind_congr fun e s' he => ?_
    obtain ⟨hkey, hs'⟩ := sound_of_lift (Exec.element_keeps _) hs₁ he
    obtain ⟨key, row, col⟩ := e
    rw [lift_bind]
    obtain ⟨place, stack, frame, callers, ⟨store, globals, console, generator, now⟩⟩ := s'
    cases hi : (store.grid key).index? row col with
    | some k =>
      simp only [bind, EStateM.bind, cell_ok hs' hkey hi, lift, Exec.setCell, hi]
      rfl
    | none =>
      simp only [bind, EStateM.bind, cell_error hs' hkey hi, lift, Exec.setCell, hi]
      rfl
  all_goals simp only [step, hop]

/-! ## Runs -/

/-- A result of the machine as the strict machine gives it where it does not break down. -/
def unbroken {ε : Type} : EStateM.Result ε State α → EStateM.Result (Option ε) State α
  | .ok a s => .ok a s
  | .error e s => .error (some e) s

/-- What fails properly is not broken. -/
theorem lift_eq_unbroken {x : Exec α} {post : α → State → Prop} {fail : Fault → State → Prop}
    (h : ResultHas post fail (x s)) (hfail : ∀ f s, fail f s → f.isProper = true) :
    lift x s = unbroken (x s) := by
  cases hx : x s with
  | ok a s' => exact lift_ok hx
  | error f s' =>
    rw [hx] at h
    rw [lift_error hx, failure, if_pos (hfail f s' h)]
    rfl

/-- The end of a sound state is not broken. -/
theorem result_eq (hs : s.Sound size last n) :
    result s = unbroken (StackScript.result s) ∧
      ResultHas (fun _ s' => s'.Sound size last n) (fun _ s' => s'.Sound size last n)
        (StackScript.result s) := by
  have hpop := Exec.pop_keeps s hs
  unfold result StackScript.result
  cases hresult : Exec.pop s with
  | ok c s' =>
    rw [hresult] at hpop
    obtain ⟨⟨v, rfl, -⟩, hs'⟩ := hpop
    exact ⟨rfl, hs'⟩
  | error f s' =>
    rw [hresult] at hpop
    exact ⟨rfl, hpop.2⟩

/-- What is shown of a run: the strict machine runs as the machine does, into a sound state. -/
def RunsStrictly (p : Program) (hosts : Array HostFunction) (n fuel : Nat) (s : State) : Prop :=
  runWithin p hosts fuel s = unbroken (StackScript.runWithin p hosts fuel s) ∧
    ResultHas (fun _ s' => ∃ m, n ≤ m ∧ s'.Sound p.code.size (p.code.size + 1) m)
      (fun _ s' => ∃ m, n ≤ m ∧ s'.Sound p.code.size (p.code.size + 1) m)
      (StackScript.runWithin p hosts fuel s)

/-- At the end of the program a run gives its result. -/
theorem runsStrictly_of_end (hs : s.Sound p.code.size (p.code.size + 1) n)
    (hend : s.place = p.code.size) (fuel : Nat) : RunsStrictly p hosts n fuel s := by
  have hcode : p.code[s.place]? = none := Array.getElem?_eq_none (Nat.le_of_eq hend.symm)
  have hstrict : runWithin p hosts fuel s = result s := by
    cases fuel <;> rw [runWithin, if_pos hend]
  have hplain : StackScript.runWithin p hosts fuel s = StackScript.result s := by
    cases fuel <;> rw [StackScript.runWithin] <;> simp only [hcode]
  obtain ⟨heq, hsound⟩ := result_eq hs
  unfold RunsStrictly
  rw [hstrict, hplain]
  exact ⟨heq, hsound.imp (fun _ s' h => ⟨n, le_rfl, h⟩) fun _ s' h => ⟨n, le_rfl, h⟩⟩

variable (hhosts : ∀ f ∈ hosts, Host.Sound f.run)
include hhosts

/-- A step of the strict machine from a sound state is one of the machine. -/
theorem step_eq (hconstants : ∀ c ∈ p.constants, c.Held n) (hs : s.Sound p.code.size p.code.size n)
    (i : Instruction) : step p hosts i s = unbroken (StackScript.step p hosts i s) := by
  rw [step_eq_lift hs]
  exact lift_eq_unbroken (step_ends hhosts hconstants i s hs) fun _ _ h => h.1

/-- A run of the strict machine from a sound state is one of the machine, and it ends in a sound
state. -/
theorem runsStrictly (fuel : Nat) (hconstants : ∀ c ∈ p.constants, c.Held n)
    (hs : s.Sound p.code.size (p.code.size + 1) n) : RunsStrictly p hosts n fuel s := by
  induction fuel generalizing s n with
  | zero =>
    by_cases hend : s.place = p.code.size
    · exact runsStrictly_of_end hs hend 0
    · obtain ⟨i, hi⟩ := hs.exists_fetch hend
      unfold RunsStrictly
      rw [runWithin, if_neg hend, StackScript.runWithin]
      simp only [hi]
      exact ⟨rfl, n, le_rfl, hs⟩
  | succ fuel ih =>
    by_cases hend : s.place = p.code.size
    · exact runsStrictly_of_end hs hend (fuel + 1)
    · obtain ⟨i, hi⟩ := hs.exists_fetch hend
      have hstrict := step_eq hhosts hconstants (hs.fetch hi) i
      have hnext := step_ends hhosts hconstants i s (hs.fetch hi)
      unfold RunsStrictly
      rw [runWithin, if_neg hend, StackScript.runWithin]
      simp only [hi, hstrict]
      cases hstep : StackScript.step p hosts i s with
      | ok u s' =>
        rw [hstep] at hnext
        -- The step may have made arrays: the rest of the run is sound for a larger bound.
        obtain ⟨m, hle, hs'⟩ := hnext
        obtain ⟨heq, hsound⟩ := ih (fun c hc => (hconstants c hc).mono hle) hs'
        have hmore : ∀ s'' : State, (∃ k, m ≤ k ∧ s''.Sound p.code.size (p.code.size + 1) k) →
            ∃ k, n ≤ k ∧ s''.Sound p.code.size (p.code.size + 1) k := by
          rintro s'' ⟨k, hk, h⟩
          exact ⟨k, hle.trans hk, h⟩
        exact ⟨heq, hsound.imp (fun _ => hmore) fun _ => hmore⟩
      | error f s' =>
        rw [hstep] at hnext
        exact ⟨rfl, n, le_rfl, { hnext.2 with place := Nat.lt_succ_of_lt hnext.2.place }⟩

end Strict

end StackScript
