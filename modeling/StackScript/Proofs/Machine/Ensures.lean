import StackScript.Machine.Step

/-!
# Conditions on computations

A computation that starts in a state with a property ends in one with another, together with its
result or with the reason of its failure. The rules follow the ways in which computations are built.
-/

namespace StackScript

variable {ε σ α β : Type} {pre : σ → Prop} {post : α → σ → Prop} {fail : ε → σ → Prop}

/-- What is asked of a result: of the value and the state behind it, or of the reason for a failure
and the state that it leaves. -/
def ResultHas (post : α → σ → Prop) (fail : ε → σ → Prop) : EStateM.Result ε σ α → Prop
  | .ok a s => post a s
  | .error e s => fail e s

/-- A computation has a result as asked whenever it starts in a state as asked. -/
def Ensures (pre : σ → Prop) (post : α → σ → Prop) (fail : ε → σ → Prop) (x : EStateM ε σ α) :
    Prop :=
  ∀ s, pre s → ResultHas post fail (x s)

/-- Less may be asked of a result. -/
theorem ResultHas.imp {post' : α → σ → Prop} {fail' : ε → σ → Prop} {r : EStateM.Result ε σ α}
    (h : ResultHas post fail r) (hpost : ∀ a s, post a s → post' a s)
    (hfail : ∀ e s, fail e s → fail' e s) : ResultHas post' fail' r := by
  cases r with
  | ok a s => exact hpost a s h
  | error e s => exact hfail e s h

namespace Ensures

/-- A value is given in the state that there is. -/
theorem pure {a : α} (h : ∀ s, pre s → post a s) :
    Ensures pre post fail (Pure.pure a : EStateM ε σ α) := h

/-- A failure is left in the state that there is. -/
theorem throw {e : ε} (h : ∀ s, pre s → fail e s) :
    Ensures pre post fail (MonadExcept.throw e : EStateM ε σ α) := h

/-- A change of the state. -/
theorem modify {post : Unit → σ → Prop} {f : σ → σ} (h : ∀ s, pre s → post () (f s)) :
    Ensures pre post fail (modify f : EStateM ε σ Unit) := h

/-- One computation after another. -/
theorem bind {mid : β → σ → Prop} {x : EStateM ε σ β} {f : β → EStateM ε σ α}
    (h : Ensures pre mid fail x) (hrest : ∀ b, Ensures (mid b) post fail (f b)) :
    Ensures pre post fail (x >>= f) := by
  intro s hs
  have hfirst := h s hs
  change ResultHas post fail (EStateM.bind x f s)
  unfold EStateM.bind
  cases hx : x s with
  | ok b s' =>
    rw [hx] at hfirst
    exact hrest b s' hfirst
  | error e s' =>
    rw [hx] at hfirst
    exact hfirst

/-- A computation that looks at the state. -/
theorem get {f : σ → EStateM ε σ α} (h : ∀ s, pre s → ResultHas post fail (f s s)) :
    Ensures pre post fail (get >>= f) := h

/-- A computation that decides. -/
theorem ite {c : Prop} [Decidable c] {x y : EStateM ε σ α} (h : c → Ensures pre post fail x)
    (h' : ¬ c → Ensures pre post fail y) : Ensures pre post fail (if c then x else y) := by
  by_cases hc : c
  · rw [if_pos hc]
    exact h hc
  · rw [if_neg hc]
    exact h' hc

end Ensures

/-! ## Properties of states of the machine -/

/-- A property of states that does not depend on the stack. -/
def State.StackFree (keep : State → Prop) : Prop := ∀ s stack, keep s → keep { s with stack }

namespace Exec

variable {keep : State → Prop}

/-- A computation that keeps a property of states, also if it fails. -/
abbrev Always (keep : State → Prop) (x : Exec α) : Prop :=
  Ensures keep (fun _ => keep) (fun _ => keep) x

/-- A computation that keeps a property of states, unless it fails. -/
abbrev Preserves (keep : State → Prop) (x : Exec α) : Prop :=
  Ensures keep (fun _ => keep) (fun _ _ => True) x

namespace Always

/-- A property that is always kept is kept unless there is a failure. -/
theorem preserves {x : Exec α} (h : Always keep x) : Preserves keep x :=
  fun s hs => (h s hs).imp (fun _ _ hkeep => hkeep) fun _ _ _ => trivial

/-- A value changes nothing. -/
theorem pure (a : α) : Always keep (Pure.pure a) := Ensures.pure fun _ hs => hs

/-- A failure changes nothing. -/
theorem throw (f : Fault) : Always keep (MonadExcept.throw f : Exec α) :=
  Ensures.throw fun _ hs => hs

/-- Looking at the state changes nothing. -/
theorem get {f : State → Exec α} (h : ∀ s, Always keep (f s)) :
    Always keep (MonadState.get >>= f) := fun s hs => h s s hs

/-- Asking for a value changes nothing. -/
theorem value (c : Cell) : Always keep (value c) := by
  cases c with
  | none => exact throw _
  | some v => exact pure v

/-- Asking for a slot changes nothing. -/
theorem slot (operand : UInt64) : Always keep (slot operand) :=
  get fun _ => Ensures.ite (fun _ => pure _) fun _ => throw _

section

variable (hfree : State.StackFree keep)
include hfree

/-- Pushing changes the stack only. -/
theorem push (c : Cell) : Always keep (push c) := Ensures.modify fun s hs => hfree s _ hs

/-- Popping changes the stack only. -/
theorem pop : Always keep pop := by
  rintro ⟨place, stack, frame, callers, world⟩ hs
  cases stack with
  | nil => exact hs
  | cons c stack => exact hfree _ stack hs

/-- Popping several changes the stack only. -/
theorem popMany (k : Nat) : Always keep (popMany k) := by
  induction k with
  | zero => exact pure _
  | succ k ih => exact (pop hfree).bind fun c => ih.bind fun cs => pure _

/-- Looking up an element changes the stack only. -/
theorem element (operand : UInt64) : Always keep (element operand) := by
  refine (pop hfree).bind fun col => (pop hfree).bind fun row => (slot operand).bind fun k => ?_
  refine get fun s => (value _).bind fun v => ?_
  cases v with
  | array key => exact (value row).bind fun _ => (value col).bind fun _ => pure _
  | _ => exact throw _

end

end Always

namespace Preserves

/-- A failure is allowed. -/
theorem throw (f : Fault) : Preserves keep (MonadExcept.throw f : Exec α) :=
  Ensures.throw fun _ _ => trivial

/-- One computation after another. -/
theorem bind {x : Exec α} {f : α → Exec β} (h : Preserves keep x)
    (hrest : ∀ a, Preserves keep (f a)) : Preserves keep (x >>= f) := Ensures.bind h hrest

/-- Looking at the state changes nothing. -/
theorem get {f : State → Exec α} (h : ∀ s, Preserves keep (f s)) :
    Preserves keep (MonadState.get >>= f) := fun s hs => h s s hs

/-- Asking for a value changes nothing. -/
theorem value (c : Cell) : Preserves keep (value c) := (Always.value c).preserves

/-- Asking for a slot changes nothing. -/
theorem slot (operand : UInt64) : Preserves keep (slot operand) := (Always.slot operand).preserves

section

variable (hfree : State.StackFree keep)
include hfree

/-- Pushing changes the stack only. -/
theorem push (c : Cell) : Preserves keep (push c) := (Always.push hfree c).preserves

/-- Popping changes the stack only. -/
theorem pop : Preserves keep pop := (Always.pop hfree).preserves

/-- Popping several changes the stack only. -/
theorem popMany (k : Nat) : Preserves keep (popMany k) := (Always.popMany hfree k).preserves

/-- Looking up an element changes the stack only. -/
theorem element (operand : UInt64) : Preserves keep (element operand) :=
  (Always.element hfree operand).preserves

end

end Preserves

end Exec

end StackScript
