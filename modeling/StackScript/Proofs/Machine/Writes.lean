import StackScript.Proofs.Machine.Hosts
import StackScript.Proofs.Machine.Rules
import StackScript.Proofs.Value.Data

/-!
# What happens to arrays

The only instruction that changes an array is the one that sets a cell. All others leave the arrays
that there are as they were, and so do the standard functions. So an array has, at any time, the
cells with which the run began, with the writes that the run made to it since then applied in order
(`Steps.grid_eq`).
-/

namespace StackScript

variable {i : Instruction} {key : Nat} {s s' : State}

namespace Store.Extends

variable {st st' : Store}

/-- The arrays of a store are the same in one that extends it. -/
theorem grid (h : st'.Extends st) (hkey : key < st.next) : st'.grid key = st.grid key := by
  obtain ⟨rest, hrest⟩ := h
  unfold Store.grid
  rw [← Array.getElem?_toList, ← Array.getElem?_toList, ← hrest,
    List.getElem?_append_left (by simpa [Store.next] using hkey)]

/-- A store that extends another has its keys. -/
theorem next_le (h : st'.Extends st) : st.next ≤ st'.next := by
  have hle := List.IsPrefix.length_le h
  simpa [Store.next] using hle

end Store.Extends

/-- A cell of an array is set. -/
structure CellWrite where
  /-- The array. -/
  key : Nat
  /-- The place of the cell, row by row. -/
  index : Nat
  /-- What it is set to. -/
  value : Cell

/-- What a write makes of the contents of an array. -/
def CellWrite.onto (key : Nat) (g : Grid) (w : CellWrite) : Grid :=
  if w.key = key then g.put w.index w.value else g

/-- The write that the next instruction of a program makes, if it is one that sets a cell. -/
def Program.write? (p : Program) (s : State) : Option CellWrite :=
  match p.code[s.place]?, s.stack with
  | some i, v :: some col :: some row :: _ =>
    match i.op, s.frame[i.operand.toNat]? with
    | .writeArray, some (some (.array key)) =>
      ((s.world.store.grid key).index? row.toIndex col.toIndex).map fun k => ⟨key, k, v⟩
    | _, _ => none
  | _, _ => none

/-- The writes of the first `n` steps from a state, in order. -/
def Program.writes (p : Program) (hosts : Array HostFunction) : Nat → State → List CellWrite
  | 0, _ => []
  | n + 1, s =>
    match p.next hosts s with
    | some (.ok _ s') => (p.write? s).toList ++ p.writes hosts n s'
    | _ => []

/-- A host function that changes no array. It may make new ones. -/
def Host.LeavesArrays (run : List Cell → Host Cell) : Prop :=
  ∀ st args, Ensures (fun w => w.store.Extends st) (fun _ w => w.store.Extends st)
    (fun _ _ => True) (run args)

/-! ## Writes keep the size -/

/-- Writing keeps the size. -/
theorem CellWrite.foldl_size (key : Nat) (ws : List CellWrite) (g : Grid) :
    (ws.foldl (CellWrite.onto key) g).rows = g.rows ∧
      (ws.foldl (CellWrite.onto key) g).cols = g.cols := by
  induction ws generalizing g with
  | nil => exact ⟨rfl, rfl⟩
  | cons w ws ih =>
    have hone : (w.onto key g).rows = g.rows ∧ (w.onto key g).cols = g.cols := by
      unfold CellWrite.onto
      split <;> exact ⟨rfl, rfl⟩
    rw [List.foldl_cons, (ih _).1, (ih _).2]
    exact hone

/-! ## Parts of instructions -/

namespace Exec

variable {α : Type} {st : Store}

/-- A computation that changes none of the arrays of a store. -/
abbrev Spares (st : Store) (x : Exec α) : Prop := Preserves (fun s => s.world.store.Extends st) x

namespace Spares

/-- The store is not on the stack. -/
theorem stackFree (st : Store) : State.StackFree fun s => s.world.store.Extends st :=
  fun _ _ hs => hs

/-- A change of the state but not of the world. -/
theorem modify {f : State → State} (h : ∀ s, (f s).world = s.world) :
    Spares st (modify f : Exec Unit) :=
  Ensures.modify fun s hs => by
    rw [h s]
    exact hs

/-- Going on spares the store. -/
theorem next : Spares st next := modify fun _ => rfl

/-- A jump spares the store. -/
theorem jump (p : Program) (operand : UInt64) : Spares st (jump p operand) :=
  Ensures.ite (fun _ => modify fun _ => rfl) fun _ => Preserves.throw _

/-- Allocating a frame spares the store. -/
theorem allocate (slots : Nat) : Spares st (allocate slots) := by
  refine modify ?_
  rintro ⟨place, stack, frame, callers, world⟩
  rcases callers with _ | ⟨⟨resume, _ | kept⟩, callers⟩ <;> rfl

/-- A host call changes no array if the function does not. -/
theorem callHost {hosts : Array HostFunction} (hhosts : ∀ f ∈ hosts, Host.LeavesArrays f.run)
    (operand : UInt64) : Spares st (callHost hosts operand) := by
  unfold Exec.callHost
  cases hf : hosts[(HostCall.unpack operand).index]? with
  | none =>
    simp only [hf]
    exact .throw _
  | some f =>
    simp only [hf]
    refine .bind (.popMany (stackFree st) _) fun args => ?_
    rintro ⟨place, stack, frame, callers, world⟩ hs
    have hrun := hhosts f (Array.mem_of_getElem? hf) st args world hs
    simp only
    cases hresult : f.run args world with
    | ok c w =>
      rw [hresult] at hrun
      exact hrun
    | error e w => trivial

/-- A new array goes behind those that there are. -/
theorem makeArray : Spares st makeArray := by
  have hpop := Preserves.pop (stackFree st)
  refine hpop.bind fun fill => hpop.bind fun cols => hpop.bind fun rows => ?_
  refine .bind (.value rows) fun r => .bind (.value cols) fun c => ?_
  cases Grid.make r.toIndex c.toIndex fill with
  | error e => exact .throw _
  | ok g =>
    refine Ensures.modify ?_
    rintro ⟨place, stack, frame, callers, world⟩ hs
    exact (Store.Extends.add world.store g).trans hs

/-- A return spares the store. -/
theorem ret : Spares st ret := by
  rintro ⟨place, stack, frame, callers, world⟩ hs
  cases callers with
  | nil => trivial
  | cons caller callers => exact hs

end Spares

end Exec

/-! ## Steps -/

section Steps

open Exec

variable {p : Program} {hosts : Array HostFunction}
  (hhosts : ∀ f ∈ hosts, Host.LeavesArrays f.run)

include hhosts in
/-- No instruction but the one that sets a cell changes an array. -/
theorem step_spares (st : Store) (hop : i.op ≠ .writeArray) : Exec.Spares st (step p hosts i) := by
  have hfree := Spares.stackFree st
  have hpop := Preserves.pop hfree
  unfold step
  generalize i.op = op at hop
  cases op with
  | noop => exact Spares.next
  | frame =>
    exact Ensures.ite (fun _ => Preserves.throw _) fun _ =>
      (Spares.allocate _).bind fun _ => Spares.next
  | constant =>
    cases p.constants[i.operand.toNat]? with
    | none => exact Preserves.throw _
    | some c => exact (Preserves.push hfree c).bind fun _ => Spares.next
  | load =>
    exact (Preserves.slot _).bind fun k => Preserves.get fun s =>
      (Preserves.push hfree _).bind fun _ => Spares.next
  | store =>
    exact hpop.bind fun c => (Preserves.slot _).bind fun k =>
      (Spares.modify fun _ => rfl).bind fun _ => Spares.next
  | push => exact (Preserves.push hfree _).bind fun _ => Spares.next
  | pop => exact hpop.bind fun _ => Spares.next
  | not =>
    exact hpop.bind fun c => (Preserves.value c).bind fun v =>
      (Preserves.push hfree _).bind fun _ => Spares.next
  | jump => exact Spares.jump p _
  | jumpIf =>
    exact hpop.bind fun c => (Preserves.value c).bind fun v =>
      Ensures.ite (fun _ => Spares.jump p _) fun _ => Spares.next
  | jumpUnless =>
    exact hpop.bind fun c => (Preserves.value c).bind fun v =>
      Ensures.ite (fun _ => Spares.next) fun _ => Spares.jump p _
  | call =>
    refine Preserves.bind (Spares.modify ?_) fun _ => Spares.jump p _
    -- A call changes the callers and the place, neither of which is in the store.
    exact fun _ => rfl
  | ret => exact Spares.ret
  | callHost => exact (Spares.callHost hhosts _).bind fun _ => Spares.next
  | makeArray => exact Spares.makeArray.bind fun _ => Spares.next
  | readArray =>
    refine (Preserves.element hfree _).bind fun e => Preserves.get fun s => ?_
    obtain ⟨key, row, col⟩ := e
    cases (s.world.store.grid key).get row col with
    | ok c => exact (Preserves.push hfree c).bind fun _ => Spares.next
    | error e => exact Preserves.throw _
  | writeArray => exact absurd rfl hop
  | undefined code => exact Preserves.throw _
  | _ =>
    refine hpop.bind fun b => hpop.bind fun a => Preserves.get fun s => ?_
    split
    · exact (Preserves.push hfree _).bind fun _ => Spares.next
    · exact Preserves.throw _

/-- An instruction other than the one that sets a cell makes no write. -/
theorem Program.write?_of_ne (hi : p.code[s.place]? = some i) (hop : i.op ≠ .writeArray) :
    p.write? s = none := by
  unfold Program.write?
  rw [hi]
  split
  · rename_i h _
    cases h
    split
    · rename_i h _
      exact absurd h hop
    · rfl
  · rfl

/-- An element that was found: the column and the row were on the stack, and the array in the
slot. -/
theorem element_eq_ok {o : UInt64} {r : Nat × Int × Int} (h : Exec.element o s = .ok r s') :
    ∃ key row col stack, s.stack = some col :: some row :: stack ∧
      s.frame[o.toNat]? = some (some (.array key)) ∧
      r = (key, row.toIndex, col.toIndex) ∧ s' = { s with stack } := by
  obtain ⟨place, stack, frame, callers, world⟩ := s
  rcases stack with _ | ⟨col, _ | ⟨row, stack⟩⟩
  · cases h
  · cases h
  by_cases hslot : o.toNat < frame.size
  · have hget : frame.getD o.toNat none = frame[o.toNat] := by simp [Array.getD, hslot]
    have hcell : frame[o.toNat]? = some frame[o.toNat] := Array.getElem?_eq_getElem hslot
    simp only [Exec.element, bind, EStateM.bind, Exec.pop,
      slot_eq (s := ⟨place, stack, frame, callers, world⟩) hslot, get_eq, hget] at h
    simp only [hcell]
    generalize frame[o.toNat] = cell at h
    cases cell with
    | none => cases h
    | some a =>
      cases a with
      | array key =>
        cases row with
        | none => cases h
        | some row =>
          cases col with
          | none => cases h
          | some col =>
            cases h
            exact ⟨key, row, col, stack, rfl, rfl, rfl, rfl⟩
      | _ => cases h
  · simp only [Exec.element, bind, EStateM.bind, Exec.pop,
      slot_eq_error (s := ⟨place, stack, frame, callers, world⟩) hslot] at h
    cases h

/-- An instruction that sets a cell makes its write, and changes nothing else of the arrays. -/
theorem step_writes (hi : p.code[s.place]? = some i) (hop : i.op = .writeArray)
    (hstep : step p hosts i s = .ok () s') :
    ∃ w, p.write? s = some w ∧
      s'.world.store = ⟨s.world.store.grids.modify w.key fun g => g.put w.index w.value⟩ := by
  obtain ⟨place, stack, frame, callers, store, globals, console, generator, clock⟩ := s
  unfold step at hstep
  rw [hop] at hstep
  rcases stack with _ | ⟨v, stack⟩
  · cases hstep
  simp only [bind, EStateM.bind, Exec.pop] at hstep
  cases helement : Exec.element i.operand
      ⟨place, stack, frame, callers, store, globals, console, generator, clock⟩ with
  | error f m =>
    rw [helement] at hstep
    cases hstep
  | ok r m =>
    obtain ⟨key, row, col, stack', hstack, hcell, rfl, rfl⟩ := element_eq_ok helement
    simp only at hstack hcell
    rw [helement] at hstep
    unfold Program.write?
    rw [hi]
    simp only [hstack, hop, hcell]
    -- Rows and columns outside of the array are an error, so the step found a cell.
    cases hindex : (store.grid key).index? row.toIndex col.toIndex with
    | none =>
      simp only [Exec.setCell, hindex] at hstep
      cases hstep
    | some k =>
      simp only [Exec.setCell, hindex] at hstep
      cases hstep
      exact ⟨⟨key, k, v⟩, rfl, rfl⟩

include hhosts in
/-- What one step does to an array: nothing, or the write that it makes. -/
theorem next_grid (h : p.next hosts s = some (.ok () s')) (hkey : key < s.world.store.next) :
    s.world.store.next ≤ s'.world.store.next ∧
      s'.world.store.grid key =
        (p.write? s).toList.foldl (CellWrite.onto key) (s.world.store.grid key) := by
  obtain ⟨i, hi, hstep⟩ := Option.map_eq_some_iff.mp h
  by_cases hop : i.op = .writeArray
  · obtain ⟨w, hw, hstore⟩ := step_writes hi hop hstep
    rw [hw, hstore]
    refine ⟨by simp [Store.next], ?_⟩
    have hlt : key < s.world.store.grids.size := hkey
    simp only [Option.toList_some, List.foldl_cons, List.foldl_nil, CellWrite.onto, Store.grid,
      Array.getElem?_modify, Array.getElem?_eq_getElem hlt]
    split <;> rfl
  · have hspares := step_spares (p := p) hhosts s.world.store hop s (.refl _)
    rw [hstep] at hspares
    have hextends : s'.world.store.Extends s.world.store := hspares
    rw [Program.write?_of_ne hi hop]
    exact ⟨hextends.next_le, hextends.grid hkey⟩

include hhosts in
/-- What a run does to an array is the writes that it makes, in order. -/
theorem Steps.grid_eq {n : Nat} (h : Steps p hosts n s s') (hkey : key < s.world.store.next) :
    s'.world.store.grid key =
      (p.writes hosts n s).foldl (CellWrite.onto key) (s.world.store.grid key) := by
  induction n generalizing s with
  | zero =>
    cases h
    rfl
  | succ n ih =>
    obtain ⟨m, hm, hrest⟩ := h
    obtain ⟨hle, hgrid⟩ := next_grid hhosts hm hkey
    have hwrites : p.writes hosts (n + 1) s = (p.write? s).toList ++ p.writes hosts n m := by
      rw [Program.writes, hm]
    rw [ih hrest (Nat.lt_of_lt_of_le hkey hle), hgrid, hwrites, List.foldl_append]

end Steps

/-- No standard function changes an array: it changes nothing that arrays depend on. -/
theorem Host.standard_leavesArrays :
    ∀ f ∈ Host.standard.toArray, Host.LeavesArrays f.run := by
  intro f hf st args w hw
  have hrespected : Host.Respected (fun w => w.store.Extends st) (fun _ => True) fun _ => True :=
    { console := fun _ hw => hw
      generator := fun _ hw => hw
      clock := fun _ hw => hw
      global := fun _ _ => trivial
      setGlobal := fun _ _ hw _ => hw
      scalar := fun _ => trivial
      missing := fun _ => trivial
      outputFull := trivial
      inputFailed := trivial }
  have hkeeps := Host.standard_keeps hrespected f hf args (fun _ _ => trivial) w hw
  exact hkeeps.imp (fun _ _ h => h.2) fun _ _ _ => trivial

end StackScript
