import StackScript.Proofs.Machine.Rules

/-!
# Following an evaluation

The machine follows an evaluation if it does what the evaluation says: it reaches a state that fits
the value, or fails in the same way with the same world, or goes on for at least as many steps as
the evaluation's bound. The rules are those by which evaluations are put together: a value at once,
one evaluation behind another, and an operation on cells that one instruction does.
-/

namespace StackScript

/-- An activation with the index of a counting loop set, if that is a variable. -/
def Activation.setIndex (act : Activation) (index : Bytes) (i : Cell) : Activation :=
  if index.isEmpty then act else { act with vars := fun y => if y = index then i else act.vars y }

/-- Setting an index leaves the world. -/
theorem Activation.setIndex_world (act : Activation) (index : Bytes) (i : Cell) :
    (act.setIndex index i).world = act.world := by
  unfold setIndex
  split <;> rfl

namespace Eval

variable {α : Type} {act : Activation}

/-- A variable is read. -/
theorem getVar_bind (x : Bytes) (f : Cell → Eval α) :
    (getVar x >>= f) act = f (act.vars x) act := rfl

/-- A variable is set. -/
theorem setVar_bind (x : Bytes) (v : Cell) (f : Unit → Eval α) :
    (setVar x v >>= f) act =
      f () { act with vars := fun y => if y = x then v else act.vars y } := rfl

/-- An index is read. -/
theorem getIndex_bind (index : Bytes) (i : Cell) (f : Cell → Eval α) :
    (getIndex index i >>= f) act = f (if index.isEmpty then i else act.vars index) act := by
  unfold getIndex
  split <;> rfl

/-- An index is set. -/
theorem setIndex_bind (index : Bytes) (i : Cell) (f : Unit → Eval α) :
    (setIndex index i >>= f) act = f () (act.setIndex index i) := by
  unfold setIndex Activation.setIndex
  split <;> rfl

/-- The store is read. -/
theorem store_bind (f : Store → Eval α) : (store >>= f) act = f act.world.store act := rfl

end Eval

/-- The machine does from a state what an evaluation says, where `world` gives the world of the
evaluation's state, and a reached state fits the value in the way that `post` says. -/
def Follows {α σ : Type} (p : Program) (hosts : Array HostFunction) (world : σ → World) (n : Nat)
    (s : State) (post : α → σ → State → Prop) : EStateM.Result Stop σ α → Prop
  | .ok x c => Reaches p hosts s (post x c)
  | .error (.failure f) c =>
    Fails p hosts s fun fault s' => fault.failure? = some f ∧ s'.world = world c
  | .error .unfinished _ => Lasts p hosts n s
  | .error .malformed _ => False

namespace Follows

variable {α β σ : Type} {p : Program} {hosts : Array HostFunction} {world : σ → World}
  {m n : Nat} {s s' : State} {post : α → σ → State → Prop} {r : EStateM.Result Stop σ α} {c : σ}

/-- Fewer steps may be asked for. -/
theorem mono (h : Follows p hosts world n s post r) (hm : m ≤ n) :
    Follows p hosts world m s post r := by
  match r with
  | .ok x c => exact h
  | .error (.failure f) c => exact h
  | .error .unfinished c => exact Lasts.mono h hm
  | .error .malformed c => exact h

/-- Steps may be made before. -/
theorem of_steps (hs : Steps p hosts m s s') (h : Follows p hosts world n s' post r) :
    Follows p hosts world (m + n) s post r := by
  match r with
  | .ok x c => exact Reaches.of_steps hs h
  | .error (.failure f) c => exact Fails.of_steps hs h
  | .error .unfinished c => exact Lasts.of_steps hs h
  | .error .malformed c => exact h

/-- One step may be made before. -/
theorem of_next (hs : p.next hosts s = some (.ok () s')) (h : Follows p hosts world n s' post r) :
    Follows p hosts world n s post r :=
  (of_steps (.single hs) h).mono (Nat.le_add_left n 1)

/-- One step before, which counts. -/
theorem of_next_succ (hs : p.next hosts s = some (.ok () s'))
    (h : Follows p hosts world n s' post r) : Follows p hosts world (n + 1) s post r := by
  rw [Nat.add_comm]
  exact of_steps (.single hs) h

/-- A value is there at once. -/
theorem now {x : α} (h : post x c s) :
    Follows p hosts world n s post ((pure x : EStateM Stop σ α) c) :=
  ⟨0, s, rfl, h⟩

/-- An evaluation whose bound is used up. -/
theorem unfinished : Follows p hosts world 0 s post ((throw .unfinished : EStateM Stop σ α) c) :=
  ⟨s, rfl⟩

/-- The machine follows one evaluation after another. -/
theorem bind {x : EStateM Stop σ α} {f : α → EStateM Stop σ β} {post' : β → σ → State → Prop}
    (h : Follows p hosts world n s post (x c))
    (h' : ∀ v c' s', post v c' s' → Follows p hosts world n s' post' (f v c')) :
    Follows p hosts world n s post' ((x >>= f) c) := by
  change Follows p hosts world n s post' (EStateM.bind x f c)
  rw [EStateM.bind]
  match hx : x c with
  | .ok v c' =>
    rw [hx] at h
    obtain ⟨m, s', hs, hpost⟩ := h
    exact (of_steps hs (h' v c' s' hpost)).mono (Nat.le_add_left n m)
  | .error (.failure e) c' => rwa [hx] at h
  | .error .unfinished c' => rwa [hx] at h
  | .error .malformed c' =>
    rw [hx] at h
    exact h.elim

/-- The machine may go on after a value. -/
theorem extend {post' : α → σ → State → Prop} (h : Follows p hosts world n s post r)
    (h' : ∀ v c s', post v c s' → Reaches p hosts s' (post' v c)) :
    Follows p hosts world n s post' r := by
  match r with
  | .ok x c =>
    obtain ⟨m, s', hs, hpost⟩ := h
    exact Reaches.of_steps hs (h' x c s' hpost)
  | .error (.failure f) c => exact h
  | .error .unfinished c => exact h
  | .error .malformed c => exact h

/-- Less may be asked of the end. -/
theorem imp {post' : α → σ → State → Prop} (h : Follows p hosts world n s post r)
    (h' : ∀ v c s', post v c s' → post' v c s') : Follows p hosts world n s post' r :=
  h.extend fun v c s' hpost => ⟨0, s', rfl, h' v c s' hpost⟩

/-- An operation on cells that the next instruction does, at the end of an evaluation. -/
theorem lift_end {a : Activation} {o : Except Stop α} {g : α → State}
    {post : α → Activation → State → Prop} (h : Does p hosts s (o.map g))
    (hworld : s.world = a.world) (h' : ∀ x, o = .ok x → post x a (g x)) :
    Follows p hosts Activation.world n s post (Eval.lift o a) := by
  match o with
  | .ok x => exact of_next h ⟨0, _, rfl, h' x rfl⟩
  | .error (.failure e) =>
    obtain ⟨fault, s', hnext, hfault, hw⟩ := h
    exact ⟨0, s, fault, s', rfl, hnext, hfault, hw.trans hworld⟩
  | .error .unfinished => exact h.elim
  | .error .malformed => exact h.elim

/-- An operation on cells that the next instruction does, and an evaluation behind it. -/
theorem lift {a : Activation} {o : Except Stop α} {g : α → State}
    {f : α → Eval β} {post' : β → Activation → State → Prop} (h : Does p hosts s (o.map g))
    (hworld : s.world = a.world)
    (h' : ∀ x, o = .ok x → Follows p hosts Activation.world n (g x) post' (f x a)) :
    Follows p hosts Activation.world n s post' ((Eval.lift o >>= f) a) := by
  have hlift : Follows p hosts Activation.world n s
      (fun x a' s' => o = .ok x ∧ a' = a ∧ s' = g x) (Eval.lift o a) :=
    lift_end h hworld fun x hx => ⟨hx, rfl, rfl⟩
  refine hlift.bind ?_
  rintro x a' s' ⟨hx, rfl, rfl⟩
  exact h' x hx

end Follows

end StackScript
