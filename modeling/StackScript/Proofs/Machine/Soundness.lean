import StackScript.Proofs.Machine.Ensures
import StackScript.Proofs.Machine.Rules
import StackScript.Proofs.Value.Renaming

/-!
# Sound states

In a sound state no value is missing: there is one in every cell of the stack, of the frames, of the
global variables and of the arrays, and the arrays that are held are in the store and have a size
that arrays can have. The place is in the program or at its end, and so are the places that calls go
back to.

Whatever the instruction is, one step from a sound state leads to a sound state or fails in one, and
then not because a value is missing.
-/

namespace StackScript

variable {cells : Array Cell} {c : Cell} {k key : Nat} {s : State} {v : Value}

/-! ## Soundness -/

/-- A cell holds a value, and if that is an array it is one of the first `n` of a store. -/
def Cell.Held (n : Nat) (c : Cell) : Prop :=
  ∃ v : Value, c = some v ∧ ∀ key, v = .array key → key < n

/-- A grid has a size that arrays can have, and a value in every cell. -/
structure Grid.Full (n : Nat) (g : Grid) : Prop where
  allowed : Grid.sizeAllowed g.rows g.cols = true
  held : ∀ c ∈ g.cells, c.Held n

/-- A store of `n` full grids. -/
structure Store.Full (n : Nat) (st : Store) : Prop where
  next : st.next = n
  grids : ∀ g ∈ st.grids, g.Full n

/-- A world of `n` arrays in which no value is missing. -/
structure World.Sound (n : Nat) (w : World) : Prop where
  store : w.store.Full n
  globals : ∀ g ∈ w.globals, g.2.Held n

/-- A caller in a program of `size` instructions goes back to a place of the program or to its end,
and no value is missing from its frame. -/
structure Caller.Sound (size n : Nat) (c : Caller) : Prop where
  resume : c.resume ≤ size
  frame : ∀ fr, c.frame = some fr → ∀ v ∈ fr, v.Held n

/-- A state of a program of `size` instructions, at a place in front of `last`, in which no value is
missing. -/
structure State.Sound (size last n : Nat) (s : State) : Prop where
  place : s.place < last
  stack : ∀ c ∈ s.stack, c.Held n
  frame : ∀ c ∈ s.frame, c.Held n
  callers : ∀ c ∈ s.callers, c.Sound size n
  world : s.world.Sound n

/-- Whether a host function fails for another reason than that a value is missing. -/
def HostError.isProper : HostError → Bool
  | .missing => false
  | _ => true

/-- Whether an instruction fails for another reason than that a value is missing. -/
def Fault.isProper : Fault → Bool
  | .missingValue => false
  | .host _ e => e.isProper
  | _ => true

/-- A host function that is given values gives one back and leaves no value missing, also when it
fails, which it does for a reason of its own. -/
def Host.Sound (run : List Cell → Host Cell) : Prop :=
  ∀ n args, (∀ c ∈ args, c.Held n) →
    Ensures (World.Sound n) (fun c w => c.Held n ∧ w.Sound n)
      (fun e w => e.isProper = true ∧ w.Sound n) (run args)

namespace Cell.Held

variable {m n : Nat}

/-- A cell is held by a larger store. -/
theorem mono (h : c.Held m) (hle : m ≤ n) : c.Held n := by
  obtain ⟨v, hv, hkey⟩ := h
  exact ⟨v, hv, fun key hk => Nat.lt_of_lt_of_le (hkey key hk) hle⟩

/-- A value that is no array is held. -/
theorem scalar (h : v.kind ≠ .array) : Cell.Held n (some v) := by
  refine ⟨v, rfl, fun key hkey => ?_⟩
  rw [hkey] at h
  exact absurd rfl h

/-- An array of the store is held. -/
theorem array (h : key < n) : Cell.Held n (some (.array key)) := by
  refine ⟨_, rfl, fun k hk => ?_⟩
  cases hk
  exact h

/-- A place in a range of cells. -/
theorem getD (h : ∀ c ∈ cells, c.Held n) (hk : k < cells.size) : (cells.getD k none).Held n := by
  have hcell : cells.getD k none = cells[k] := by simp [hk]
  rw [hcell]
  exact h _ (Array.getElem_mem hk)

/-- Cells are held after one is set. -/
theorem setIfInBounds (h : ∀ c ∈ cells, c.Held n) (hc : c.Held n) (k : Nat) :
    ∀ d ∈ cells.setIfInBounds k c, d.Held n := by
  intro d hd
  rcases Array.mem_or_eq_of_mem_setIfInBounds hd with hd | rfl
  · exact h d hd
  · exact hc

/-- Copies of a cell that is held are. -/
theorem replicate (hc : c.Held n) (k : Nat) : ∀ d ∈ Array.replicate k c, d.Held n := by
  intro d hd
  rw [Array.eq_of_mem_replicate hd]
  exact hc

end Cell.Held

namespace Grid

variable {m n : Nat} {g : Grid}

/-- A grid is full in a larger store. -/
theorem Full.mono (h : g.Full m) (hle : m ≤ n) : g.Full n :=
  ⟨h.allowed, fun c hc => (h.held c hc).mono hle⟩

/-- A grid is full after a cell is set. -/
theorem Full.put (h : g.Full n) (hc : c.Held n) (i : Nat) : (g.put i c).Full n :=
  ⟨h.allowed, Cell.Held.setIfInBounds h.held hc i⟩

/-- A new grid is full. -/
theorem Full.make {rows cols : Int} (hc : c.Held n) (h : Grid.make rows cols c = .ok g) :
    g.Full n := by
  unfold Grid.make at h
  split at h
  · rename_i hallowed
    cases h
    refine ⟨?_, Cell.Held.replicate hc _⟩
    obtain ⟨hrows, hcols, -⟩ := sizeAllowed_iff.mp hallowed
    show sizeAllowed (rows.toNat : Int) (cols.toNat : Int) = true
    rwa [Int.toNat_of_nonneg hrows, Int.toNat_of_nonneg hcols]
  · cases h

end Grid

namespace Store.Full

variable {n : Nat} {st : Store}

/-- An array of a full store is there and full. -/
theorem grid (h : st.Full n) (hkey : key < n) :
    st.grids[key]? = some (st.grid key) ∧ (st.grid key).Full n := by
  have hlt : key < st.grids.size := by
    rw [← h.next] at hkey
    exact hkey
  have hget : st.grids[key]? = some st.grids[key] := Array.getElem?_eq_getElem hlt
  have hgrid : st.grid key = st.grids[key] := by
    unfold Store.grid
    rw [hget]
    rfl
  rw [hgrid]
  exact ⟨hget, h.grids _ (Array.getElem_mem hlt)⟩

/-- A store is full after an array is added. -/
theorem add (h : st.Full n) {g : Grid} (hg : g.Full (n + 1)) : (st.add g).Full (n + 1) := by
  refine ⟨?_, ?_⟩
  · unfold Store.next Store.add
    rw [Array.size_push]
    exact congrArg Nat.succ h.next
  · intro g' hg'
    rcases Array.mem_push.mp hg' with hg' | rfl
    · exact (h.grids g' hg').mono (Nat.le_succ n)
    · exact hg

/-- A store is full after a cell is set. -/
theorem modify (h : st.Full n) (key i : Nat) (hc : c.Held n) :
    Store.Full n ⟨st.grids.modify key fun g => g.put i c⟩ := by
  refine ⟨?_, ?_⟩
  · unfold Store.next
    rw [Array.size_modify]
    exact h.next
  · intro g hg
    obtain ⟨k, hk, rfl⟩ := Array.mem_iff_getElem.mp hg
    rw [Array.getElem_modify]
    have hold := h.grids _ (Array.getElem_mem (by simpa using hk))
    split
    · exact hold.put hc i
    · exact hold

end Store.Full

/-- The faults of operators are proper, but for a missing value. -/
theorem OperatorError.proper_fault {e : OperatorError} (h : e ≠ .missing) (code : UInt16) :
    (e.fault code).isProper = true := by
  cases e with
  | missing => exact absurd rfl h
  | divideByZero => rfl
  | undefined => rfl

/-! ## Parts of instructions -/

namespace Exec

variable {α β : Type} {size last n : Nat}

/-- A failure that is not due to a missing value, in a state that is still sound. -/
abbrev Stopped (size last n : Nat) (f : Fault) (s : State) : Prop :=
  f.isProper = true ∧ s.Sound size last n

/-- A computation keeps states sound, also when it fails, and what it gives has a property. -/
abbrev Keeps (size last n : Nat) (values : α → Prop) (x : Exec α) : Prop :=
  Ensures (State.Sound size last n) (fun a s => values a ∧ s.Sound size last n)
    (Stopped size last n) x

/-- A computation that ends an instruction leaves the place in the program or at its end. -/
abbrev Ends (size last n : Nat) (x : Exec Unit) : Prop :=
  Ensures (State.Sound size last n) (fun _ s => ∃ m, n ≤ m ∧ s.Sound size (size + 1) m)
    (Stopped size last n) x

/-- What a computation gives can be used by the next one. -/
theorem Keeps.bind {values : α → Prop} {post : β → State → Prop} {x : Exec α} {f : α → Exec β}
    (h : Keeps size last n values x)
    (hrest : ∀ a, values a → Ensures (State.Sound size last n) post
      (Stopped size last n) (f a)) :
    Ensures (State.Sound size last n) post (Stopped size last n) (x >>= f) :=
  Ensures.bind h fun a s hs => hrest a hs.1 s hs.2

/-- A proper fault may stop a sound state. -/
theorem throw_ensures {post : β → State → Prop} {f : Fault} (h : f.isProper = true) :
    Ensures (State.Sound size last n) post (Stopped size last n) (MonadExcept.throw f : Exec β) :=
  Ensures.throw fun _ hs => ⟨h, hs⟩

/-- Going on ends soundly. -/
theorem next_ends : Ends size size n next :=
  Ensures.modify fun _ hs => ⟨n, le_rfl, { hs with place := Nat.succ_lt_succ hs.place }⟩

/-- Pushing what is held keeps states sound. -/
theorem push_keeps (hc : c.Held n) : Keeps size last n (fun _ => True) (push c) :=
  Ensures.modify fun _ hs => ⟨trivial, { hs with stack := List.forall_mem_cons.mpr ⟨hc, hs.stack⟩ }⟩

/-- Pushing and going on ends soundly. -/
theorem push_next_ends (hc : c.Held n) : Ends size size n (do push c; next) :=
  (push_keeps hc).bind fun _ _ => next_ends

/-- Popping keeps states sound and gives what is held. -/
theorem pop_keeps : Keeps size last n (Cell.Held n) pop := by
  rintro ⟨place, stack, frame, callers, world⟩ hs
  cases stack with
  | nil => exact ⟨rfl, hs⟩
  | cons c stack =>
    obtain ⟨hc, hstack⟩ := List.forall_mem_cons.mp hs.stack
    exact ⟨hc, { hs with stack := hstack }⟩

/-- Asking for a value keeps states sound. -/
theorem value_keeps (hc : c.Held n) :
    Keeps size last n (fun v => c = some v ∧ ∀ key, v = .array key → key < n) (value c) := by
  obtain ⟨v, rfl, hkey⟩ := hc
  exact Ensures.pure fun _ hs => ⟨⟨rfl, hkey⟩, hs⟩

/-- Popping several keeps states sound. -/
theorem popMany_keeps (k : Nat) : Keeps size last n (∀ c ∈ ·, c.Held n) (popMany k) := by
  induction k with
  | zero => exact Ensures.pure fun _ hs => ⟨List.forall_mem_nil _, hs⟩
  | succ k ih =>
    refine pop_keeps.bind fun c hc => ih.bind fun cs hcs => ?_
    exact Ensures.pure fun _ hs => ⟨List.forall_mem_cons.mpr ⟨hc, hcs⟩, hs⟩

/-- A slot is one of the frame. -/
theorem slot_ensures (operand : UInt64) :
    Ensures (State.Sound size last n) (fun k s => k < s.frame.size ∧ s.Sound size last n)
      (Stopped size last n) (slot operand) := by
  intro s hs
  by_cases hlt : operand.toNat < s.frame.size
  · rw [slot_eq hlt]
    exact ⟨hlt, hs⟩
  · rw [slot_eq_error hlt]
    exact ⟨rfl, hs⟩

/-- A jump ends soundly. -/
theorem jump_ends {p : Program} (operand : UInt64) : Ends p.code.size last n (jump p operand) := by
  unfold jump
  refine Ensures.ite (fun hlt => ?_) fun _ => throw_ensures rfl
  exact Ensures.modify fun _ hs => ⟨n, le_rfl, { hs with place := Nat.lt_succ_of_lt hlt }⟩

/-- Allocating a frame keeps states sound. -/
theorem allocate_keeps (slots : Nat) : Keeps size last n (fun _ => True) (allocate slots) := by
  have hfresh : ∀ c ∈ Array.replicate slots (some (.boolean false)), Cell.Held n c :=
    Cell.Held.replicate (.scalar (by decide)) slots
  refine Ensures.modify ?_
  rintro ⟨place, stack, frame, callers, world⟩ hs
  -- Only a caller that has kept no frame yet takes the one in use.
  rcases callers with _ | ⟨⟨resume, _ | kept⟩, callers⟩
  · exact ⟨trivial, { hs with frame := hfresh }⟩
  · obtain ⟨hcaller, hcallers⟩ := List.forall_mem_cons.mp hs.callers
    have hkept : Caller.Sound size n ⟨resume, some frame⟩ := by
      refine ⟨hcaller.resume, fun fr hfr => ?_⟩
      cases hfr
      exact hs.frame
    have hcallers' := List.forall_mem_cons.mpr ⟨hkept, hcallers⟩
    exact ⟨trivial, { hs with frame := hfresh, callers := hcallers' }⟩
  · exact ⟨trivial, { hs with frame := hfresh }⟩

/-- The array in a slot is in the store. -/
theorem element_keeps (operand : UInt64) :
    Keeps size last n (fun e => e.1 < n) (element operand) := by
  unfold element
  refine pop_keeps.bind fun col hcol => pop_keeps.bind fun row hrow => ?_
  refine (slot_ensures operand).bind fun k => Ensures.get fun s hs => ?_
  obtain ⟨hk, hs⟩ := hs
  have hcell : (s.frame.getD k none).Held n := .getD hs.frame hk
  refine (value_keeps hcell).bind (fun v hv => ?_) s hs
  cases v with
  | array key =>
    refine (value_keeps hrow).bind fun r _ => (value_keeps hcol).bind fun c _ => ?_
    exact Ensures.pure fun _ hs => ⟨hv.2 key rfl, hs⟩
  | _ => exact throw_ensures rfl

/-- A host call keeps states sound if the functions do. -/
theorem callHost_keeps {hosts : Array HostFunction} (hhosts : ∀ f ∈ hosts, Host.Sound f.run)
    (operand : UInt64) : Keeps size last n (fun _ => True) (callHost hosts operand) := by
  unfold callHost
  cases hf : hosts[(HostCall.unpack operand).index]? with
  | none =>
    simp only [hf]
    exact throw_ensures rfl
  | some f =>
    simp only [hf]
    refine (popMany_keeps _).bind fun args hargs => ?_
    rintro ⟨place, stack, frame, callers, world⟩ hs
    have hrun := hhosts f (Array.mem_of_getElem? hf) n args hargs world hs.world
    simp only
    cases hresult : f.run args world with
    | ok c w =>
      rw [hresult] at hrun
      obtain ⟨hc, hw⟩ := hrun
      exact ⟨trivial, { hs with stack := List.forall_mem_cons.mpr ⟨hc, hs.stack⟩, world := hw }⟩
    | error e w =>
      rw [hresult] at hrun
      obtain ⟨he, hw⟩ := hrun
      exact ⟨he, { hs with world := hw }⟩

/-- A new array makes the store larger by one. -/
theorem makeArray_ensures :
    Ensures (State.Sound size last n) (fun _ s => s.Sound size last (n + 1))
      (Stopped size last n) makeArray := by
  unfold makeArray
  refine pop_keeps.bind fun fill hfill => pop_keeps.bind fun cols hcols =>
    pop_keeps.bind fun rows hrows => (value_keeps hrows).bind fun r _ =>
      (value_keeps hcols).bind fun c _ => ?_
  cases hmake : Grid.make r.toIndex c.toIndex fill with
  | error e =>
    simp only
    exact throw_ensures rfl
  | ok g =>
    have hg : g.Full (n + 1) := .make (hfill.mono (Nat.le_succ n)) hmake
    refine Ensures.modify ?_
    rintro ⟨place, stack, frame, callers, world⟩ hs
    have hkey : Cell.Held (n + 1) (some (.array world.store.next)) := by
      rw [hs.world.store.next]
      exact .array (Nat.lt_succ_self n)
    have hmore : ∀ c : Cell, c.Held n → c.Held (n + 1) := fun c hc => hc.mono (Nat.le_succ n)
    refine ⟨hs.place, List.forall_mem_cons.mpr ⟨hkey, fun c hc => hmore c (hs.stack c hc)⟩,
      fun c hc => hmore c (hs.frame c hc), fun c hc => ?_,
      ⟨hs.world.store.add hg, fun g hg => hmore g.2 (hs.world.globals g hg)⟩⟩
    have hcaller := hs.callers c hc
    exact ⟨hcaller.resume, fun fr hfr v hv => hmore v (hcaller.frame fr hfr v hv)⟩

/-- Setting a cell keeps states sound. -/
theorem setCell_keeps (key : Nat) (row col : Int) (hc : c.Held n) :
    Keeps size last n (fun _ => True) (setCell key row col c) := by
  rintro ⟨place, stack, frame, callers, ⟨store, globals, console, generator, now⟩⟩ hs
  unfold setCell
  simp only
  cases (store.grid key).index? row col with
  | none => exact ⟨rfl, hs⟩
  | some i =>
    exact ⟨trivial, { hs with world := ⟨hs.world.store.modify key i hc, hs.world.globals⟩ }⟩

/-- A return ends soundly. -/
theorem ret_ends : Ends size last n ret := by
  rintro ⟨place, stack, frame, callers, world⟩ hs
  cases callers with
  | nil => exact ⟨rfl, hs⟩
  | cons caller callers =>
    obtain ⟨hcaller, hcallers⟩ := List.forall_mem_cons.mp hs.callers
    refine ⟨n, le_rfl, Nat.lt_succ_of_le hcaller.resume, hs.stack, ?_, hcallers, hs.world⟩
    show ∀ c ∈ caller.frame.getD frame, c.Held n
    cases hframe : caller.frame with
    | none => exact hs.frame
    | some fr => exact hcaller.frame fr hframe

/-- An operator finds two values and gives one. -/
theorem operator_ends (o : Operator) (code : UInt16) :
    Ends size size n (do
      let b ← pop
      let a ← pop
      match o.applyCells (← get).world.store a b with
      | .ok v =>
        push (some v)
        next
      | .error e => throw (e.fault code)) := by
  refine pop_keeps.bind fun b hb => pop_keeps.bind fun a ha => Ensures.get fun s hs => ?_
  cases hresult : o.applyCells s.world.store a b with
  | ok v => exact push_next_ends (.scalar (Operator.applyCells_kind hresult)) s hs
  | error e =>
    obtain ⟨v, rfl, -⟩ := ha
    obtain ⟨w, rfl, -⟩ := hb
    have he : e ≠ .missing := by
      rintro rfl
      rcases Operator.apply_eq_error hresult with he | ⟨he, -⟩ <;> cases he
    exact ⟨OperatorError.proper_fault he code, hs⟩

end Exec

/-! ## Steps and runs -/

section Runs

open Exec

variable {p : Program} {hosts : Array HostFunction} {n : Nat}

/-- One step of a program whose constants are values keeps states sound. -/
theorem step_ends (hhosts : ∀ f ∈ hosts, Host.Sound f.run)
    (hconstants : ∀ c ∈ p.constants, c.Held n) (i : Instruction) :
    Exec.Ends p.code.size p.code.size n (step p hosts i) := by
  unfold step
  cases i.op with
  | noop => exact next_ends
  | frame =>
    refine Ensures.ite (fun _ => throw_ensures rfl) fun _ => ?_
    exact (allocate_keeps _).bind fun _ _ => next_ends
  | constant =>
    cases hc : p.constants[i.operand.toNat]? with
    | none =>
      exact throw_ensures rfl
    | some c =>
      exact push_next_ends (hconstants c (Array.mem_of_getElem? hc))
  | load =>
    refine (slot_ensures _).bind fun k => Ensures.get fun s hs => ?_
    exact push_next_ends (.getD hs.2.frame hs.1) s hs.2
  | store =>
    refine pop_keeps.bind fun c hc => (slot_ensures _).bind fun k => ?_
    have hset : Ensures (fun s => k < s.frame.size ∧ State.Sound p.code.size p.code.size n s)
        (fun _ s => s.Sound p.code.size p.code.size n) (Stopped p.code.size p.code.size n)
        (modify fun s => { s with frame := s.frame.setIfInBounds k c }) :=
      Ensures.modify fun s hs => { hs.2 with frame := .setIfInBounds hs.2.frame hc k }
    exact hset.bind fun _ => next_ends
  | push => exact push_next_ends (.scalar (by decide))
  | pop => exact pop_keeps.bind fun _ _ => next_ends
  | not =>
    refine pop_keeps.bind fun c hc => (value_keeps hc).bind fun v _ => ?_
    exact push_next_ends (.scalar (by simp [Value.kind]))
  | jump => exact jump_ends _
  | jumpIf =>
    refine pop_keeps.bind fun c hc => (value_keeps hc).bind fun v _ => ?_
    exact Ensures.ite (fun _ => jump_ends _) fun _ => next_ends
  | jumpUnless =>
    refine pop_keeps.bind fun c hc => (value_keeps hc).bind fun v _ => ?_
    exact Ensures.ite (fun _ => next_ends) fun _ => jump_ends _
  | call =>
    have hcall : Exec.Keeps p.code.size p.code.size n (fun _ => True)
        (modify fun s => { s with callers := ⟨s.place + 1, none⟩ :: s.callers }) := by
      refine Ensures.modify fun s hs => ⟨trivial, { hs with callers := ?_ }⟩
      exact List.forall_mem_cons.mpr ⟨⟨hs.place, fun fr hfr => by cases hfr⟩, hs.callers⟩
    exact hcall.bind fun _ _ => jump_ends _
  | ret => exact ret_ends
  | callHost => exact (callHost_keeps hhosts _).bind fun _ _ => next_ends
  | makeArray =>
    refine makeArray_ensures.bind fun _ => Ensures.modify fun s hs => ?_
    -- The new array has the key `n`, so from here on one key more is sound.
    exact ⟨n + 1, Nat.le_succ n, { hs with place := Nat.succ_lt_succ hs.place }⟩
  | readArray =>
    refine (element_keeps _).bind fun e he => Ensures.get fun s hs => ?_
    obtain ⟨key, row, col⟩ := e
    -- A key that is sound belongs to an array, all of whose cells are sound.
    obtain ⟨-, hfull⟩ := hs.world.store.grid he
    unfold Grid.get
    cases hi : (s.world.store.grid key).index? row col with
    | some i => exact push_next_ends (.getD hfull.held (Grid.index?_lt hi)) s hs
    | none => exact ⟨rfl, hs⟩
  | writeArray =>
    refine pop_keeps.bind fun c hc => (element_keeps _).bind fun e he => ?_
    exact (setCell_keeps e.1 e.2.1 e.2.2 hc).bind fun _ _ => next_ends
  | undefined code => exact throw_ensures rfl
  | _ => exact operator_ends _ _

/-- A run begins in a sound state. -/
theorem World.Sound.start {w : World} (h : w.Sound n) (size : Nat) :
    (State.start size w).Sound size (size + 1) n := by
  refine ⟨Nat.succ_pos size, List.forall_mem_nil _, fun c hc => ?_, ?_, h⟩
  · exact absurd hc (Array.not_mem_empty c)
  · refine List.forall_mem_singleton.mpr ⟨Nat.le_refl size, fun fr hfr v hv => ?_⟩
    cases hfr
    exact absurd hv (Array.not_mem_empty v)

/-- An instruction that is fetched from a sound state is in the program. -/
theorem State.Sound.fetch {last : Nat} (h : s.Sound p.code.size last n) {i : Instruction}
    (hi : p.code[s.place]? = some i) : s.Sound p.code.size p.code.size n := by
  obtain ⟨hlt, -⟩ := Array.getElem?_eq_some_iff.mp hi
  exact { h with place := hlt }

/-- A sound state that is not at the end of the program has an instruction. -/
theorem State.Sound.exists_fetch (h : s.Sound p.code.size (p.code.size + 1) n)
    (hend : s.place ≠ p.code.size) : ∃ i, p.code[s.place]? = some i := by
  have hlt : s.place < p.code.size := Nat.lt_of_le_of_ne (Nat.le_of_lt_succ h.place) hend
  exact ⟨_, Array.getElem?_eq_getElem hlt⟩

variable (hhosts : ∀ f ∈ hosts, Host.Sound f.run)
include hhosts

/-- Every state of a run is sound. -/
theorem Steps.sound {s' : State} (h : Steps p hosts k s s')
    (hconstants : ∀ c ∈ p.constants, c.Held n) (hs : s.Sound p.code.size (p.code.size + 1) n) :
    ∃ m, n ≤ m ∧ s'.Sound p.code.size (p.code.size + 1) m := by
  induction k generalizing s n with
  | zero =>
    cases h
    exact ⟨n, le_rfl, hs⟩
  | succ k ih =>
    obtain ⟨r, hr, hrest⟩ := h
    obtain ⟨i, hi, hstep⟩ := Option.map_eq_some_iff.mp hr
    have hnext := step_ends hhosts hconstants i s (hs.fetch hi)
    rw [hstep] at hnext
    obtain ⟨m, hle, hm⟩ := hnext
    obtain ⟨m', hle', hm'⟩ := ih hrest (fun c hc => (hconstants c hc).mono hle) hm
    exact ⟨m', hle.trans hle', hm'⟩

end Runs

end StackScript
