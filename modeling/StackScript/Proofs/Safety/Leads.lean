import StackScript.Proofs.Layout.Compiled
import StackScript.Proofs.Machine.Rules

/-!
# Where compiled code leads

From the beginning of a piece of code the machine comes to its end, or fails in a way that is
allowed, or is not there yet after any given number of steps. Expressions come to their end with one
more cell on the stack, and statements with the stack as it was. The number of steps is what loops
and recursive calls are proved by induction on. What is known of the states before the end makes
these statements about all runs: one that comes to any other state has come to the end before
(`Leads.passes`).

If code is `strict`, every `leave` is inside a loop of its own function, and no failure is allowed
that means the code itself is broken. Otherwise a `leave` may end up in another function, with a
frame that is not its own, and any failure is allowed; the stack is still as it should be.
-/

namespace StackScript

/-- The faults that mean that code is broken: no source program can be blamed for them. -/
def Fault.isBroken : Fault → Bool
  | stackUnderflow | slotOutOfRange .. | constantOutOfRange _ | jumpOutOfRange _
  | hostOutOfRange _ | noCaller | unknownOpcode _ => true
  | _ => false

/-- A fault that reports a failure does not mean that code is broken. -/
theorem Fault.isBroken_of_failure? {f : Fault} {e : Failure} (h : f.failure? = some e) :
    f.isBroken = false := by
  cases f <;> cases h <;> rfl

/-- From a state the machine comes to one with a property, or fails in an allowed way before, or
takes `n` steps at least before. All these steps begin in `good` states. -/
def Leads (p : Program) (hosts : Array HostFunction) (strict : Prop) (good : State → Prop) (n : Nat)
    (s : State) (post : State → Prop) : Prop :=
  (∃ k s', StepsVia p hosts good k s s' ∧ post s') ∨
    (∃ k s' f s'', StepsVia p hosts good k s s' ∧ good s' ∧
      p.next hosts s' = some (.error f s'') ∧ (strict → f.isBroken = false)) ∨
    ∃ s', StepsVia p hosts good n s s'

namespace Leads

variable {p : Program} {hosts : Array HostFunction} {strict : Prop} {good good' : State → Prop}
  {m n : Nat} {s s' : State} {post mid : State → Prop}

/-- What holds needs no steps. -/
theorem now (h : post s) : Leads p hosts strict good n s post := .inl ⟨0, s, rfl, h⟩

/-- No step is a beginning. -/
theorem zero : Leads p hosts strict good 0 s post := .inr (.inr ⟨s, rfl⟩)

/-- What leads on for some steps leads on for fewer. -/
theorem mono (h : Leads p hosts strict good n s post) (hm : m ≤ n) :
    Leads p hosts strict good m s post :=
  h.imp_right fun h => h.imp_right fun ⟨_, h⟩ => h.take hm

/-- States that are good in one sense may be good in another. -/
theorem weaken (h : Leads p hosts strict good n s post) (hgood : ∀ q, good q → good' q) :
    Leads p hosts strict good' n s post := by
  rcases h with ⟨k, q, hk, hpost⟩ | ⟨k, q, f, q', hk, hq, hnext, hf⟩ | ⟨q, hn⟩
  · exact .inl ⟨k, q, hk.mono hgood, hpost⟩
  · exact .inr (.inl ⟨k, q, f, q', hk.mono hgood, hgood q hq, hnext, hf⟩)
  · exact .inr (.inr ⟨q, hn.mono hgood⟩)

/-- Steps before, which count. -/
theorem of_steps (h : StepsVia p hosts good m s s') (h' : Leads p hosts strict good n s' post) :
    Leads p hosts strict good (m + n) s post := by
  rcases h' with ⟨k, q, hk, hpost⟩ | ⟨k, q, f, q', hk, hq, hnext, hf⟩ | ⟨q, hn⟩
  · exact .inl ⟨m + k, q, h.trans hk, hpost⟩
  · exact .inr (.inl ⟨m + k, q, f, q', h.trans hk, hq, hnext, hf⟩)
  · exact .inr (.inr ⟨q, h.trans hn⟩)

/-- A step before. -/
theorem of_next (hs : good s) (h : p.next hosts s = some (.ok () s'))
    (h' : Leads p hosts strict good n s' post) : Leads p hosts strict good n s post :=
  (of_steps (.single hs h) h').mono (Nat.le_add_left n 1)

/-- A step before, which counts. -/
theorem of_next_succ (hs : good s) (h : p.next hosts s = some (.ok () s'))
    (h' : Leads p hosts strict good n s' post) : Leads p hosts strict good (n + 1) s post := by
  rw [Nat.add_comm]
  exact of_steps (.single hs h) h'

/-- Leading on after leading on. -/
theorem trans (h : Leads p hosts strict good n s mid)
    (h' : ∀ s', mid s' → Leads p hosts strict good n s' post) :
    Leads p hosts strict good n s post := by
  rcases h with ⟨m, s', hs, hmid⟩ | h | h
  · exact (of_steps hs (h' s' hmid)).mono (Nat.le_add_left n m)
  · exact .inr (.inl h)
  · exact .inr (.inr h)

/-- Less may be asked of the end. -/
theorem imp (h : Leads p hosts strict good n s mid) (h' : ∀ s', mid s' → post s') :
    Leads p hosts strict good n s post :=
  h.trans fun s' hs => now (h' s' hs)

/-- An instruction that fails in an allowed way. -/
theorem of_error {f : Fault} (hs : good s) (h : p.next hosts s = some (.error f s'))
    (hf : strict → f.isBroken = false) : Leads p hosts strict good n s post :=
  .inr (.inl ⟨0, s, f, s', rfl, hs, h, hf⟩)

/-- An instruction that computes. -/
theorem of_does {α : Type} {r : Except Stop α} {g : α → State} (hs : good s)
    (h : Does p hosts s (r.map g))
    (h' : ∀ x, r = .ok x → Leads p hosts strict good n (g x) post) :
    Leads p hosts strict good n s post := by
  match r with
  | .ok x => exact of_next hs h (h' x rfl)
  | .error (.failure e) =>
    obtain ⟨f, s', hnext, hf, -⟩ := h
    exact of_error hs hnext fun _ => Fault.isBroken_of_failure? hf
  | .error .unfinished => exact h.elim
  | .error .malformed => exact h.elim

/-- A run that comes to a state which is not good has come to one with the property before. -/
theorem passes (h : ∀ n, Leads p hosts strict good n s post) (hsteps : Steps p hosts n s s')
    (hbad : ¬ good s') :
    ∃ k r, k ≤ n ∧ Steps p hosts k s r ∧ post r ∧ Steps p hosts (n - k) r s' := by
  rcases h (n + 1) with ⟨k, r, hk, hpost⟩ | ⟨k, r, f, r', hk, hr, hnext, -⟩ | ⟨r, hn⟩
  · rcases Nat.lt_or_ge n k with hlt | hle
    · exact absurd (hk.good_of_lt hlt hsteps) hbad
    · exact ⟨k, r, hle, hk.steps, hpost, hsteps.drop hk.steps hle⟩
  · rcases Nat.lt_trichotomy n k with hlt | rfl | hlt
    · exact absurd (hk.good_of_lt hlt hsteps) hbad
    · exact absurd (hsteps.unique hk.steps ▸ hr) hbad
    · -- Nothing comes behind an instruction that fails.
      obtain ⟨q, hq⟩ := hsteps.take hlt
      obtain ⟨q', hq'⟩ := hq.next hk.steps
      rw [hnext] at hq'
      cases hq'
  · exact absurd (hn.good_of_lt (Nat.lt_succ_self n) hsteps) hbad

end Leads

section

variable {L : Layout} {hosts : Array HostFunction} {strict : Prop} {good : State → Prop}
  {n a k : Nat} {st : List Cell} {fr : Array Cell} {cs : List Caller} {w : World}
  {post : State → Prop}

/-- An instruction on a slot, which strict code has. -/
theorem leads_slot {op : Opcode} (hgood : good ⟨a, st, fr, cs, w⟩) (h : L.Has a op k)
    (hop : op ∈ [Opcode.load, .store, .readArray, .writeArray]) (hk : strict → k < fr.size)
    (hin : k < fr.size → Leads L.program hosts strict good n ⟨a, st, fr, cs, w⟩ post) :
    Leads L.program hosts strict good n ⟨a, st, fr, cs, w⟩ post := by
  by_cases hlt : k < fr.size
  · exact hin hlt
  · obtain ⟨f, s', hnext⟩ : ∃ f s', L.program.next hosts ⟨a, st, fr, cs, w⟩ = some (.error f s') :=
      next_slot_error h hop hlt
    exact .of_error hgood hnext fun hs => absurd (hk hs) hlt

/-- The top of the stack is stored. -/
theorem leads_store {v : Cell} (hgood : good ⟨a, v :: st, fr, cs, w⟩) (h : L.Has a .store k)
    (hk : strict → k < fr.size)
    (h' : Leads L.program hosts strict good n ⟨a + 1, st, fr.setIfInBounds k v, cs, w⟩ post) :
    Leads L.program hosts strict good n ⟨a, v :: st, fr, cs, w⟩ post :=
  leads_slot hgood h (by simp) hk fun hlt => .of_next hgood (next_store h hlt) h'

end

end StackScript
