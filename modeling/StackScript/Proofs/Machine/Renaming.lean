import StackScript.Machine.Run
import StackScript.Proofs.Machine.Related
import StackScript.Proofs.Value.Renaming

/-!
# Runs up to the keys of arrays

States correspond under a renaming of keys if they are equal but for it. An instruction takes
states that correspond to such states; one that makes an array adds the pair of new keys to the
renaming. So programs whose constants correspond run alike in worlds that correspond: they give the
same result or fail with the same message, and the console is the same.
-/

namespace StackScript

variable {c d : Cell} {bare : Instruction → Instruction}

variable {ρ ρ' : Nat → Nat → Prop}

/-! ## States -/

/-- The variables have the same name and corresponding contents. -/
def GlobalRenamed (ρ : Nat → Nat → Prop) (g h : Bytes × Cell) : Prop :=
  h.1 = g.1 ∧ g.2.Renamed ρ h.2

/-- The worlds are equal but for the keys of arrays. -/
structure World.Renamed (ρ : Nat → Nat → Prop) (w w' : World) : Prop where
  /-- The stores correspond. -/
  store : Store.Renamed ρ w.store w'.store
  /-- The global variables correspond. -/
  globals : List.Forall₂ (GlobalRenamed ρ) w.globals w'.globals
  /-- The console is the same. -/
  console : w'.console = w.console
  /-- The source of random numbers is the same. -/
  generator : w'.generator = w.generator
  /-- The source of the time is the same. -/
  clock : w'.clock = w.clock

/-- The callers go on at the same place with corresponding frames. -/
def Caller.Renamed (ρ : Nat → Nat → Prop) : Caller → Caller → Prop
  | ⟨resume, none⟩, d => d = ⟨resume, none⟩
  | ⟨resume, some frame⟩, d =>
    ∃ frame', d = ⟨resume, some frame'⟩ ∧ Cell.AllRenamed ρ frame.toList frame'.toList

/-- The states are equal but for the keys of arrays. -/
structure State.Renamed (ρ : Nat → Nat → Prop) (s t : State) : Prop where
  /-- The places are the same. -/
  place : t.place = s.place
  /-- The stacks correspond. -/
  stack : Cell.AllRenamed ρ s.stack t.stack
  /-- The frames correspond. -/
  frame : Cell.AllRenamed ρ s.frame.toList t.frame.toList
  /-- The callers correspond. -/
  callers : List.Forall₂ (Caller.Renamed ρ) s.callers t.callers
  /-- The worlds correspond. -/
  world : World.Renamed ρ s.world t.world

/-- More keys may be paired. -/
theorem GlobalRenamed.mono {g h : Bytes × Cell} (hg : GlobalRenamed ρ g h)
    (hρ : ∀ k l, ρ k l → ρ' k l) : GlobalRenamed ρ' g h := ⟨hg.1, hg.2.mono hρ⟩

/-- More keys may be paired. -/
theorem Caller.Renamed.mono {c d : Caller} (h : c.Renamed ρ d) (hρ : ∀ k l, ρ k l → ρ' k l) :
    c.Renamed ρ' d := by
  obtain ⟨resume, _ | frame⟩ := c
  · exact h
  · obtain ⟨frame', rfl, hframe⟩ := h
    exact ⟨frame', rfl, hframe.mono hρ⟩

/-! ## Computations -/

/-- A host function cannot tell corresponding arguments and worlds apart. -/
def Host.RespectsKeys (run : List Cell → Host Cell) : Prop :=
  ∀ ρ args args', Cell.AllRenamed ρ args args' →
    Corresponds (World.Renamed ρ) (Cell.Renamed ρ) (run args) (run args')

namespace State.Renamed

/-- What computations do to states that correspond. -/
abbrev Same (ρ : Nat → Nat → Prop) (values : α → β → Prop) (x : Exec α) (y : Exec β) : Prop :=
  Corresponds (State.Renamed ρ) values x y

/-- Going on does not look at keys. -/
theorem next : Same ρ Eq Exec.next Exec.next := by
  refine .modify fun s t h => ?_
  exact { h with place := congrArg (· + 1) h.place }

/-- Renamed values are pushed alike. -/
theorem push (hc : c.Renamed ρ d) : Same ρ Eq (Exec.push c) (Exec.push d) := by
  refine .modify fun s t h => ?_
  exact { h with stack := .cons hc h.stack }

/-- Renamed values are pushed alike before going on. -/
theorem push_next (hc : c.Renamed ρ d) :
    Same ρ Eq (Exec.push c >>= fun _ => Exec.next) (Exec.push d >>= fun _ => Exec.next) :=
  (push hc).bind fun _ _ _ => next

/-- Popping gives renamed values. -/
theorem pop : Same ρ (Cell.Renamed ρ) Exec.pop Exec.pop := by
  rintro ⟨place, stack, frame, callers, world⟩ ⟨place', stack', frame', callers', world'⟩ h
  cases h.stack with
  | nil => exact ⟨rfl, h⟩
  | cons hc hrest => exact ⟨hc, { h with stack := hrest }⟩

/-- Renamed values are asked for alike. -/
theorem value (hc : c.Renamed ρ d) : Same ρ (Value.Renamed ρ) (Exec.value c) (Exec.value d) := by
  cases c with
  | none =>
    obtain rfl := hc
    exact .throw _
  | some v =>
    obtain ⟨w, rfl, hw⟩ := hc
    exact .pure hw

/-- Popping several gives renamed values. -/
theorem popMany (n : Nat) : Same ρ (Cell.AllRenamed ρ) (Exec.popMany n) (Exec.popMany n) := by
  induction n with
  | zero => exact .pure .nil
  | succ n ih =>
    exact pop.bind fun c d hc => ih.bind fun cs ds hcs => .pure (.cons hc hcs)

/-- Slots have no keys. -/
theorem slot (operand : UInt64) : Same ρ Eq (Exec.slot operand) (Exec.slot operand) := by
  refine .get fun s t h => ?_
  simp only [h.frame.size_eq]
  split
  · exact .pure rfl
  · exact .throw _

/-- Jumps do not look at keys. -/
theorem jump {p q : Program} (hsize : q.code.size = p.code.size) (operand : UInt64) :
    Same ρ Eq (Exec.jump p operand) (Exec.jump q operand) := by
  unfold Exec.jump
  rw [hsize]
  split
  · exact .modify fun s t h => { h with place := rfl }
  · exact .throw _

/-- Frames are allocated alike. -/
theorem allocate (slots : Nat) : Same ρ Eq (Exec.allocate slots) (Exec.allocate slots) := by
  refine .modify fun s t h => ?_
  obtain ⟨place, stack, frame, callers, world⟩ := s
  obtain ⟨place', stack', frame', callers', world'⟩ := t
  have hfresh : Cell.AllRenamed ρ (Array.replicate slots (some (.boolean false))).toList
      (Array.replicate slots (some (.boolean false))).toList := by
    rw [Array.toList_replicate]
    exact .replicate (.scalar (by decide)) slots
  -- Only a caller that still shares its frame takes the one in use.
  cases h.callers with
  | nil => exact { h with frame := hfresh, callers := .nil }
  | @cons c d _ _ hc hrest =>
    obtain ⟨resume, _ | saved⟩ := c
    · obtain rfl := hc
      exact { h with frame := hfresh, callers := .cons ⟨frame', rfl, h.frame⟩ hrest }
    · obtain ⟨saved', rfl, hsaved⟩ := hc
      exact { h with frame := hfresh, callers := .cons ⟨saved', rfl, hsaved⟩ hrest }

/-- The arrays correspond, and the row and the column are the same. -/
theorem element (operand : UInt64) :
    Same ρ (fun e e' => ρ e.1 e'.1 ∧ e'.2 = e.2) (Exec.element operand)
      (Exec.element operand) := by
  refine pop.bind fun col col' hcol => pop.bind fun row row' hrow => ?_
  refine (slot operand).bind fun i j hij => ?_
  obtain rfl := hij
  refine .get fun s t h => (value (h.frame.array_getD i)).bind fun v w hv => ?_
  cases v with
  | array k =>
    obtain ⟨l, rfl, hkl⟩ := hv
    refine (value hrow).bind fun row row' hrow => (value hcol).bind fun col col' hcol => ?_
    refine .pure ⟨hkl, ?_⟩
    unfold Value.toIndex
    rw [hrow.toReal, hcol.toReal]
  | _ =>
    obtain rfl := hv
    exact .throw _

/-- Host functions that respect keys are called alike. -/
theorem callHost {hosts : Array HostFunction} (hhosts : ∀ f ∈ hosts, Host.RespectsKeys f.run)
    (operand : UInt64) : Same ρ Eq (Exec.callHost hosts operand) (Exec.callHost hosts operand) := by
  unfold Exec.callHost
  simp only
  split
  · exact .throw _
  · rename_i f hf
    refine (popMany _).bind fun args args' hargs => ?_
    rintro ⟨place, stack, frame, callers, world⟩ ⟨place', stack', frame', callers', world'⟩ h
    have hrun := hhosts f (Array.mem_of_getElem? hf) ρ args args' hargs world world' h.world
    simp only
    cases hw : f.run args world with
    | ok c w =>
      cases hw' : f.run args' world' with
      | ok c' w' =>
        rw [hw, hw'] at hrun
        exact ⟨trivial, { h with stack := .cons hrun.1 h.stack, world := hrun.2 }⟩
      | error e' w' =>
        rw [hw, hw'] at hrun
        exact hrun.elim
    | error e w =>
      cases hw' : f.run args' world' with
      | ok c' w' =>
        rw [hw, hw'] at hrun
        exact hrun.elim
      | error e' w' =>
        rw [hw, hw'] at hrun
        exact ⟨congrArg _ hrun.1, { h with world := hrun.2 }⟩

/-- Renamed arrays are set alike. -/
theorem setCell {k l : Nat} (hkl : ρ k l) (row col : Int) (hc : c.Renamed ρ d) :
    Same ρ Eq (Exec.setCell k row col c) (Exec.setCell l row col d) := by
  rintro ⟨place, stack, frame, callers, ⟨store, globals, console, generator, clock⟩⟩
    ⟨place', stack', frame', callers', ⟨store', globals', console', generator', clock'⟩⟩ h
  have hgrid := h.world.store.grids hkl
  unfold Exec.setCell
  simp only [hgrid.index?, hgrid.rows, hgrid.cols]
  cases (store.grid k).index? row col with
  | some i =>
    exact ⟨trivial, { h with world := { h.world with store := h.world.store.modify hkl i hc } }⟩
  | none => exact ⟨rfl, h⟩

/-- Renamed states return alike. -/
theorem ret : Same ρ Eq Exec.ret Exec.ret := by
  rintro ⟨place, stack, frame, callers, world⟩ ⟨place', stack', frame', callers', world'⟩ h
  cases h.callers with
  | nil => exact ⟨rfl, h⟩
  | @cons c d _ _ hc hrest =>
    obtain ⟨resume, _ | saved⟩ := c
    · obtain rfl := hc
      exact ⟨rfl, { h with place := rfl, callers := hrest }⟩
    · obtain ⟨saved', rfl, hsaved⟩ := hc
      exact ⟨rfl, { h with place := rfl, frame := hsaved, callers := hrest }⟩

/-- Operators give renamed values. -/
theorem operator (o : Operator) (code : UInt16) :
    let go : Exec Unit := do
      let b ← Exec.pop
      let a ← Exec.pop
      match o.applyCells (← get).world.store a b with
      | .ok v =>
        Exec.push (some v)
        Exec.next
      | .error e => throw (e.fault code)
    Same ρ Eq go go := by
  refine pop.bind fun b b' hb => pop.bind fun a a' ha => .get fun s t h => ?_
  rw [h.world.store.applyCells ha hb]
  cases happly : o.applyCells s.world.store a b with
  | ok v => exact push_next (.scalar (Operator.applyCells_kind happly))
  | error e => exact .throw _

/-- The states correspond under a renaming that includes `ρ`. -/
def Beyond (ρ : Nat → Nat → Prop) (s t : State) : Prop :=
  ∃ ρ' : Nat → Nat → Prop, (∀ k l, ρ k l → ρ' k l) ∧ State.Renamed ρ' s t

/-- Computations that keep the renaming. -/
theorem keep {x y : Exec Unit} (h : Same ρ Eq x y) :
    Relates (State.Renamed ρ) (fun _ s _ t => Beyond ρ s t) (State.Renamed ρ) x y :=
  Relates.imp h (fun _ _ hst => hst) fun _ _ _ _ hst => ⟨ρ, fun _ _ hkl => hkl, hst.2⟩

/-- New arrays correspond, in a renaming that knows them. -/
theorem makeArray :
    Relates (State.Renamed ρ) (fun _ s _ t => Beyond ρ s t) (State.Renamed ρ) Exec.makeArray
      Exec.makeArray := by
  refine pop.then_relates fun fill fill' hfill => pop.then_relates fun cols cols' hcols => ?_
  refine pop.then_relates fun rows rows' hrows => ?_
  refine (value hrows).then_relates fun rows rows' hrows => ?_
  refine (value hcols).then_relates fun cols cols' hcols => ?_
  unfold Value.toIndex Grid.make
  rw [hrows.toReal, hcols.toReal]
  by_cases hsize : Grid.sizeAllowed rows.toReal.toInt64.toInt cols.toReal.toInt64.toInt = true
  · simp only [hsize, if_true]
    refine .modify fun s t h => ?_
    obtain ⟨place, stack, frame, callers, world⟩ := s
    obtain ⟨place', stack', frame', callers', world'⟩ := t
    have hmore : ∀ k l, ρ k l → addPair ρ world.store.next world'.store.next k l :=
      fun _ _ => .inl
    refine ⟨addPair ρ world.store.next world'.store.next, hmore, ?_⟩
    exact {
      place := h.place
      stack := .cons ⟨_, rfl, _, rfl, .inr ⟨rfl, rfl⟩⟩ (h.stack.mono hmore)
      frame := h.frame.mono hmore
      callers := h.callers.imp fun _ _ hc => hc.mono hmore
      world := {
        h.world with
        store := h.world.store.add (.filled _ _ (hfill.mono hmore))
        globals := h.world.globals.imp fun _ _ hg => hg.mono hmore } }
  · simp only [hsize]
    exact .throw _ fun _ _ h => h

end State.Renamed

/-! ## Steps and runs -/

open State.Renamed

section Runs

variable {p q : Program} {hosts : Array HostFunction}

/-- An instruction does the same up to the keys of arrays in programs of one size whose constants
correspond. -/
theorem State.Renamed.relates_step (hhosts : ∀ f ∈ hosts, Host.RespectsKeys f.run)
    (hsize : q.code.size = p.code.size)
    (hconstants : Cell.AllRenamed ρ p.constants.toList q.constants.toList) (i : Instruction) :
    Relates (State.Renamed ρ) (fun _ s _ t => Beyond ρ s t) (State.Renamed ρ) (step p hosts i)
      (step q hosts i) := by
  unfold step
  cases i.op with
  | noop => exact keep next
  | frame =>
    simp only
    split
    · exact keep (.throw _)
    · exact keep ((allocate _).bind fun _ _ _ => next)
  | constant =>
    -- The tables have one size, so that an index is out of both or of neither.
    have hsame := hconstants.array_getD i.operand.toNat
    have hlength := hconstants.size_eq
    simp only
    by_cases hlt : i.operand.toNat < p.constants.size
    · rw [Array.getElem?_eq_getElem hlt, Array.getElem?_eq_getElem (hlength ▸ hlt)]
      rw [Array.getD_eq_getD_getElem?, Array.getD_eq_getD_getElem?, Array.getElem?_eq_getElem hlt,
        Array.getElem?_eq_getElem (hlength ▸ hlt)] at hsame
      exact keep (push_next hsame)
    · rw [Array.getElem?_eq_none (Nat.not_lt.mp hlt),
        Array.getElem?_eq_none (hlength ▸ Nat.not_lt.mp hlt)]
      exact keep (.throw _)
  | load =>
    refine keep ((slot _).bind fun k l hkl => ?_)
    obtain rfl := hkl
    exact .get fun s t h => push_next (h.frame.array_getD k)
  | store =>
    refine keep (pop.bind fun c d hc => (slot _).bind fun k l hkl => ?_)
    obtain rfl := hkl
    refine .bind (.modify fun s t h => ?_) fun _ _ _ => next
    refine { h with frame := ?_ }
    rw [Array.toList_setIfInBounds, Array.toList_setIfInBounds]
    exact h.frame.set hc k
  | push => exact keep (push_next (.scalar (by decide)))
  | pop => exact keep (pop.bind fun _ _ _ => next)
  | not =>
    refine keep (pop.bind fun c d hc => (value hc).bind fun v w hv => ?_)
    rw [hv.truth]
    exact push_next (.scalar nofun)
  | jump => exact keep (jump hsize _)
  | jumpIf =>
    refine keep (pop.bind fun c d hc => (value hc).bind fun v w hv => ?_)
    rw [hv.truth]
    split
    · exact jump hsize _
    · exact next
  | jumpUnless =>
    refine keep (pop.bind fun c d hc => (value hc).bind fun v w hv => ?_)
    rw [hv.truth]
    split
    · exact next
    · exact jump hsize _
  | call =>
    refine keep (.bind (.modify fun s t h => ?_) fun _ _ _ => jump hsize _)
    have hplace : (⟨t.place + 1, none⟩ : Caller) = ⟨s.place + 1, none⟩ := by rw [h.place]
    exact { h with callers := .cons hplace h.callers }
  | ret => exact keep ret
  | callHost => exact keep ((callHost hhosts _).bind fun _ _ _ => next)
  | makeArray =>
    -- No other instruction makes a key, so only here does the renaming grow.
    refine makeArray.bind fun _ _ s t h => ?_
    obtain ⟨ρ', hmore, h⟩ := h
    exact ⟨ρ', hmore, (next s t h).2⟩
  | readArray =>
    refine keep ((element _).bind fun e e' he => .get fun s t h => ?_)
    obtain ⟨key, row, col⟩ := e
    obtain ⟨key', _⟩ := e'
    obtain ⟨hkey, rfl⟩ := he
    -- The two arrays have one shape: an element that is missing is missing in both.
    have hgrid := h.world.store.grids hkey
    unfold Grid.get
    simp only [hgrid.index?, hgrid.rows, hgrid.cols]
    cases (s.world.store.grid key).index? row col with
    | some i => exact push_next (hgrid.cells.array_getD i)
    | none => exact .throw _
  | writeArray =>
    refine keep (pop.bind fun c d hc => (element _).bind fun e e' he => ?_)
    obtain ⟨key, row, col⟩ := e
    obtain ⟨key', _⟩ := e'
    obtain ⟨hkey, rfl⟩ := he
    exact (setCell hkey row col hc).bind fun _ _ _ => next
  | undefined code => exact keep (.throw _)
  | _ => exact keep (operator _ _)

/-- What is seen of the end of a run: its result or the message of its failure, and the console. -/
def report : EStateM.Result RunError State Int64 → Except Bytes Int64 × Console
  | .ok n s => (.ok n, s.world.console)
  | .error e s => (.error e.message, s.world.console)

/-- The same is seen at the end of runs in corresponding states. -/
theorem State.Renamed.report_result {s t : State} (h : State.Renamed ρ s t) :
    report (result t) = report (result s) := by
  have hpop := pop s t h
  unfold result
  cases hs : Exec.pop s with
  | ok c s' =>
    cases ht : Exec.pop t with
    | ok d t' =>
      rw [hs, ht] at hpop
      obtain ⟨hc, hst⟩ := hpop
      cases c with
      | none =>
        obtain rfl := hc
        simp only [report, hst.world.console]
      | some v =>
        obtain ⟨w, rfl, hw⟩ := hc
        simp only [report, hst.world.console, hw.toReal]
    | error e t' =>
      rw [hs, ht] at hpop
      exact hpop.elim
  | error e s' =>
    cases ht : Exec.pop t with
    | ok d t' =>
      rw [hs, ht] at hpop
      exact hpop.elim
    | error e' t' =>
      rw [hs, ht] at hpop
      simp only [report, hpop.2.world.console]

/-- Programs run alike whose constants correspond and whose instructions do the same and have the
same text. -/
theorem State.Renamed.report_runWithin (hhosts : ∀ f ∈ hosts, Host.RespectsKeys f.run)
    (hcode : q.code = p.code.map bare) (hstep : ∀ i, step q hosts (bare i) = step q hosts i)
    (htext : ∀ i : Instruction, (bare i).text = i.text) (fuel : Nat) :
    ∀ {ρ : Nat → Nat → Prop} {s t : State}, State.Renamed ρ s t →
      Cell.AllRenamed ρ p.constants.toList q.constants.toList →
      report (runWithin q hosts fuel t) = report (runWithin p hosts fuel s) := by
  have hsize : q.code.size = p.code.size := by rw [hcode, Array.size_map]
  -- The renaming grows with the run, so the induction is for every one of them.
  induction fuel with
  | zero =>
    intro ρ s t h hconstants
    unfold runWithin
    rw [h.place, hcode, Array.getElem?_map]
    cases p.code[s.place]? with
    | none => exact h.report_result
    | some i => simp only [report, Option.map_some, RunError.message, h.world.console]
  | succ fuel ih =>
    intro ρ s t h hconstants
    unfold runWithin
    rw [h.place, hcode, Array.getElem?_map]
    cases p.code[s.place]? with
    | none => exact h.report_result
    | some i =>
      have hrelated := relates_step hhosts hsize hconstants i s t h
      simp only [Option.map_some, hstep]
      cases hs : step p hosts i s with
      | ok u s' =>
        cases ht : step q hosts i t with
        | ok u' t' =>
          rw [hs, ht] at hrelated
          obtain ⟨ρ', hmore, h'⟩ := hrelated
          exact ih h' (hconstants.mono hmore)
        | error e t' =>
          rw [hs, ht] at hrelated
          exact hrelated.elim
      | error e s' =>
        cases ht : step q hosts i t with
        | ok u' t' =>
          rw [hs, ht] at hrelated
          exact hrelated.elim
        | error e' t' =>
          rw [hs, ht] at hrelated
          obtain ⟨rfl, h'⟩ := hrelated
          simp only [report, RunError.message, htext, h'.world.console]

/-- The same is seen of runs in corresponding worlds. -/
theorem World.Renamed.report_run (hhosts : ∀ f ∈ hosts, Host.RespectsKeys f.run)
    (hcode : q.code = p.code.map bare) (hstep : ∀ i, step q hosts (bare i) = step q hosts i)
    (htext : ∀ i : Instruction, (bare i).text = i.text) {w w' : World}
    (hworld : World.Renamed ρ w w')
    (hconstants : Cell.AllRenamed ρ p.constants.toList q.constants.toList) (blocks : Nat) :
    report (run q hosts blocks w') = report (run p hosts blocks w) := by
  unfold run
  refine State.Renamed.report_runWithin hhosts hcode hstep htext _ ?_ hconstants
  have hsize : q.code.size = p.code.size := by rw [hcode, Array.size_map]
  unfold State.start
  rw [hsize]
  exact {
    place := rfl
    stack := .nil
    frame := .nil
    callers := .cons ⟨#[], rfl, .nil⟩ .nil
    world := hworld }

end Runs

end StackScript
