import StackScript.Machine.Run

/-!
# Steps and runs

A run of the machine is a sequence of steps that each continue where the last one ended. `Steps`
counts them, so that a run which is granted `n` instructions can be compared with what `n` steps do.
From a state a program either reaches a state with some property, or fails, or lasts for any number
of steps; `Reaches`, `Fails` and `Lasts` say so, and each can be put behind steps taken before.
-/

namespace StackScript

variable {f : Fault} {m n : Nat} {r s s' s'' : State}

variable {p : Program} {hosts : Array HostFunction}

/-- What the instruction at the place of a state does, unless the place has left the program. -/
def Program.next (p : Program) (hosts : Array HostFunction) (s : State) :
    Option (EStateM.Result Fault State Unit) :=
  p.code[s.place]?.map fun i => step p hosts i s

/-- A number of steps lead from one state to another. -/
def Steps (p : Program) (hosts : Array HostFunction) : Nat → State → State → Prop
  | 0, s, s' => s' = s
  | n + 1, s, s' => ∃ m, p.next hosts s = some (.ok () m) ∧ Steps p hosts n m s'

namespace Steps

/-- One step. -/
theorem single (h : p.next hosts s = some (.ok () s')) : Steps p hosts 1 s s' :=
  ⟨s', h, rfl⟩

/-- Steps after steps. -/
theorem trans (h : Steps p hosts m s s') (h' : Steps p hosts n s' s'') :
    Steps p hosts (m + n) s s'' := by
  induction m generalizing s with
  | zero =>
    cases h
    rwa [Nat.zero_add]
  | succ m ih =>
    obtain ⟨r, hr, hrest⟩ := h
    rw [Nat.succ_add_eq_add_succ]
    exact ⟨r, hr, ih hrest⟩

/-- The first of several steps. -/
theorem take (h : Steps p hosts n s s') (hm : m ≤ n) : ∃ r, Steps p hosts m s r := by
  induction m generalizing n s with
  | zero => exact ⟨s, rfl⟩
  | succ m ih =>
    cases n with
    | zero => exact absurd hm (Nat.not_succ_le_zero m)
    | succ n =>
      obtain ⟨r, hr, hrest⟩ := h
      obtain ⟨r', hr'⟩ := ih hrest (Nat.le_of_succ_le_succ hm)
      exact ⟨r', r, hr, hr'⟩

/-- What is left behind the first of several steps. -/
theorem drop (h : Steps p hosts n s s') (hr : Steps p hosts m s r) (hm : m ≤ n) :
    Steps p hosts (n - m) r s' := by
  induction m generalizing n s with
  | zero =>
    cases hr
    exact h
  | succ m ih =>
    obtain ⟨k, rfl⟩ : ∃ k, n = k + 1 := ⟨n - 1, by omega⟩
    obtain ⟨q, hq, hrest⟩ := h
    obtain ⟨q', hq', hr⟩ := hr
    rw [hq] at hq'
    cases hq'
    rw [Nat.add_sub_add_right]
    exact ih hrest hr (Nat.le_of_succ_le_succ hm)

/-- Steps lead to one state only. -/
theorem unique {r' : State} (h : Steps p hosts n s r) (h' : Steps p hosts n s r') : r = r' := by
  induction n generalizing s with
  | zero =>
    cases h
    cases h'
    rfl
  | succ n ih =>
    obtain ⟨m, hm, hrest⟩ := h
    obtain ⟨m', hm', hrest'⟩ := h'
    rw [hm] at hm'
    cases hm'
    exact ih hrest hrest'

/-- There is one more step behind the first of several. -/
theorem next (h : Steps p hosts (n + 1) s s') (hr : Steps p hosts n s r) :
    ∃ r', p.next hosts r = some (.ok () r') := by
  induction n generalizing s with
  | zero =>
    cases hr
    obtain ⟨m, hm, -⟩ := h
    exact ⟨m, hm⟩
  | succ n ih =>
    obtain ⟨m, hm, hrest⟩ := h
    obtain ⟨m', hm', hr⟩ := hr
    rw [hm] at hm'
    cases hm'
    exact ih hrest hr

/-- A run goes on behind its first steps. -/
theorem runWithin {n : Nat} {s s' : State} (h : Steps p hosts n s s') (fuel : Nat) :
    runWithin p hosts (n + fuel) s = runWithin p hosts fuel s' := by
  induction n generalizing s with
  | zero =>
    cases h
    rw [Nat.zero_add]
  | succ n ih =>
    obtain ⟨r, hr, hrest⟩ := h
    obtain ⟨i, hi, hstep⟩ := Option.map_eq_some_iff.mp hr
    rw [Nat.succ_add, StackScript.runWithin]
    simp only [hi, hstep]
    exact ih hrest

/-- Whether a number of steps lead to a state with a property can be computed. -/
instance decidable (post : State → Prop) [DecidablePred post] :
    (n : Nat) → (s : State) → Decidable (∃ s', Steps p hosts n s s' ∧ post s')
  | 0, s => decidable_of_iff (post s) ⟨fun h => ⟨s, rfl, h⟩, fun ⟨_, hs, h⟩ => hs ▸ h⟩
  | n + 1, s =>
    match hnext : p.next hosts s with
    | none => .isFalse fun ⟨_, ⟨_, h, _⟩, _⟩ => nomatch hnext.symm.trans h
    | some (.error _ _) => .isFalse fun ⟨_, ⟨_, h, _⟩, _⟩ => nomatch hnext.symm.trans h
    | some (.ok () m) =>
      have := decidable post n m
      decidable_of_iff (∃ s', Steps p hosts n m s' ∧ post s') <| by
        simp only [Steps, hnext, Option.some.injEq, EStateM.Result.ok.injEq, true_and,
          exists_eq_left']

end Steps

/-- A number of steps lead from one state to another, and each begins in a state with a property. -/
def StepsVia (p : Program) (hosts : Array HostFunction) (good : State → Prop) :
    Nat → State → State → Prop
  | 0, s, s' => s' = s
  | n + 1, s, s' => good s ∧ ∃ m, p.next hosts s = some (.ok () m) ∧ StepsVia p hosts good n m s'

namespace StepsVia

variable {good good' : State → Prop}

/-- One step from a good state. -/
theorem single (hs : good s) (h : p.next hosts s = some (.ok () s')) :
    StepsVia p hosts good 1 s s' :=
  ⟨hs, s', h, rfl⟩

/-- Steps after steps. -/
theorem trans (h : StepsVia p hosts good m s s') (h' : StepsVia p hosts good n s' s'') :
    StepsVia p hosts good (m + n) s s'' := by
  induction m generalizing s with
  | zero =>
    cases h
    rwa [Nat.zero_add]
  | succ m ih =>
    obtain ⟨hs, r, hr, hrest⟩ := h
    rw [Nat.succ_add_eq_add_succ]
    exact ⟨hs, r, hr, ih hrest⟩

/-- Less may be asked of the states. -/
theorem mono (h : StepsVia p hosts good n s s') (himp : ∀ r, good r → good' r) :
    StepsVia p hosts good' n s s' := by
  induction n generalizing s with
  | zero => exact h
  | succ n ih =>
    obtain ⟨hs, r, hr, hrest⟩ := h
    exact ⟨himp s hs, r, hr, ih hrest⟩

/-- The steps alone. -/
theorem steps (h : StepsVia p hosts good n s s') : Steps p hosts n s s' := by
  induction n generalizing s with
  | zero => exact h
  | succ n ih =>
    obtain ⟨-, r, hr, hrest⟩ := h
    exact ⟨r, hr, ih hrest⟩

/-- The property holds of every state that a step begins in. -/
theorem good_of_lt (h : StepsVia p hosts good n s s') (hm : m < n) (h' : Steps p hosts m s s'') :
    good s'' := by
  induction m generalizing n s with
  | zero =>
    obtain ⟨k, rfl⟩ : ∃ k, n = k + 1 := ⟨n - 1, by omega⟩
    cases h'
    exact h.1
  | succ m ih =>
    obtain ⟨k, rfl⟩ : ∃ k, n = k + 1 := ⟨n - 1, by omega⟩
    obtain ⟨-, r, hr, hrest⟩ := h
    obtain ⟨r', hr', hrest'⟩ := h'
    rw [hr] at hr'
    cases hr'
    exact ih hrest (Nat.lt_of_succ_lt_succ hm) hrest'

/-- The first of several steps. -/
theorem take (h : StepsVia p hosts good n s s') (hm : m ≤ n) :
    ∃ r, StepsVia p hosts good m s r := by
  induction m generalizing n s with
  | zero => exact ⟨s, rfl⟩
  | succ m ih =>
    obtain ⟨k, rfl⟩ : ∃ k, n = k + 1 := ⟨n - 1, by omega⟩
    obtain ⟨hs, r, hr, hrest⟩ := h
    obtain ⟨r', hr'⟩ := ih hrest (Nat.le_of_succ_le_succ hm)
    exact ⟨r', hs, r, hr, hr'⟩

end StepsVia

/-- The activation with `depth` callers is at a place with a property, or something that it has
called is under way. -/
def State.Within (depth : Nat) (at? : Nat → Prop) (s : State) : Prop :=
  depth < s.callers.length ∨ s.callers.length = depth ∧ at? s.place

/-- A run whose place has left the program ends, whatever it is still granted. -/
theorem runWithin_of_next_none (h : p.next hosts s = none) (fuel : Nat) :
    runWithin p hosts fuel s = result s := by
  have hcode : p.code[s.place]? = none := by simpa [Program.next] using h
  cases fuel <;> rw [runWithin] <;> simp only [hcode]

/-- A run ends where an instruction fails. -/
theorem runWithin_of_next_error (h : p.next hosts s = some (.error f s')) (fuel : Nat) :
    ∃ place i, runWithin p hosts (fuel + 1) s = .error (.fault place i f) s' := by
  obtain ⟨i, hi, hstep⟩ := Option.map_eq_some_iff.mp h
  refine ⟨s.place, i, ?_⟩
  rw [runWithin]
  simp only [hi, hstep]

/-- A run that is granted no more steps is cancelled, if there is an instruction. -/
theorem runWithin_zero {r : EStateM.Result Fault State Unit} (h : p.next hosts s = some r) :
    runWithin p hosts 0 s = .error .cancelled s := by
  obtain ⟨i, hi, -⟩ := Option.map_eq_some_iff.mp h
  rw [runWithin]
  simp only [hi]

/-- Some steps lead from a state to one with a property. -/
def Reaches (p : Program) (hosts : Array HostFunction) (s : State) (post : State → Prop) : Prop :=
  ∃ n s', Steps p hosts n s s' ∧ post s'

/-- Some steps lead from a state to an instruction that fails with a fault, and a state behind, that
have a property. -/
def Fails (p : Program) (hosts : Array HostFunction) (s : State) (post : Fault → State → Prop) :
    Prop :=
  ∃ n s' f s'', Steps p hosts n s s' ∧ p.next hosts s' = some (.error f s'') ∧ post f s''

/-- At least `n` steps lead on from a state. -/
def Lasts (p : Program) (hosts : Array HostFunction) (n : Nat) (s : State) : Prop :=
  ∃ s', Steps p hosts n s s'

/-- Steps may be made before. -/
theorem Reaches.of_steps {post : State → Prop} (h : Steps p hosts n s s')
    (h' : Reaches p hosts s' post) : Reaches p hosts s post := by
  obtain ⟨m, r, hr, hpost⟩ := h'
  exact ⟨n + m, r, h.trans hr, hpost⟩

/-- Steps may be made before. -/
theorem Fails.of_steps {post : Fault → State → Prop} (h : Steps p hosts n s s')
    (h' : Fails p hosts s' post) : Fails p hosts s post := by
  obtain ⟨m, r, f, r', hr, hpost⟩ := h'
  exact ⟨n + m, r, f, r', h.trans hr, hpost⟩

/-- Steps may be made before. -/
theorem Lasts.of_steps (h : Steps p hosts n s s') (h' : Lasts p hosts m s') :
    Lasts p hosts (n + m) s := by
  obtain ⟨r, hr⟩ := h'
  exact ⟨r, h.trans hr⟩

/-- Fewer steps may be asked for. -/
theorem Lasts.mono (h : Lasts p hosts n s) (hm : m ≤ n) : Lasts p hosts m s := by
  obtain ⟨r, hr⟩ := h
  exact hr.take hm

/-- A run that is granted fewer steps than there are is cancelled. -/
theorem runWithin_of_lasts {fuel : Nat} (h : Lasts p hosts (fuel + 1) s) :
    ∃ s', runWithin p hosts fuel s = .error .cancelled s' := by
  obtain ⟨last, hlast⟩ := h
  obtain ⟨r, hr⟩ := hlast.take (Nat.le_succ fuel)
  obtain ⟨r', hnext⟩ := hlast.next hr
  exact ⟨r, (hr.runWithin 0).trans (runWithin_zero hnext)⟩

/-- A run that comes to the end of the program has the result there, or is cancelled before. -/
theorem runWithin_of_end (h : Steps p hosts n s s') (hend : p.next hosts s' = none) (fuel : Nat) :
    runWithin p hosts fuel s = result s' ∨
      ∃ s'', runWithin p hosts fuel s = .error .cancelled s'' := by
  by_cases hle : n ≤ fuel
  · have hrun := h.runWithin (fuel - n)
    rw [Nat.add_sub_cancel' hle, runWithin_of_next_none hend] at hrun
    exact .inl hrun
  · exact .inr (runWithin_of_lasts (h.take (Nat.lt_of_not_le hle)))

/-- A run that comes to an instruction that fails ends with its fault, or is cancelled before. -/
theorem runWithin_of_fault (h : Steps p hosts n s s')
    (hnext : p.next hosts s' = some (.error f s'')) (fuel : Nat) :
    (∃ place i, runWithin p hosts fuel s = .error (.fault place i f) s'') ∨
      ∃ r, runWithin p hosts fuel s = .error .cancelled r := by
  rcases Nat.lt_trichotomy n fuel with hlt | rfl | hlt
  · obtain ⟨place, i, hfault⟩ := runWithin_of_next_error hnext (fuel - n - 1)
    have hrun := h.runWithin (fuel - n - 1 + 1)
    rw [hfault, show n + (fuel - n - 1 + 1) = fuel by omega] at hrun
    exact .inl ⟨place, i, hrun⟩
  · exact .inr ⟨s', (h.runWithin 0).trans (runWithin_zero hnext)⟩
  · exact .inr (runWithin_of_lasts (h.take hlt))

/-- A run is cancelled only when it has taken all the steps that it was granted. -/
theorem steps_of_cancelled (h : runWithin p hosts m s = .error .cancelled s') :
    Steps p hosts m s s' := by
  have hresult : ∀ s, result s ≠ .error .cancelled s' := by
    rintro ⟨place, _ | ⟨_ | v, stack⟩, frame, callers, world⟩ <;> rintro ⟨⟩
  induction m generalizing s with
  | zero =>
    rw [runWithin] at h
    split at h
    · exact absurd h (hresult s)
    · cases h
      rfl
  | succ m ih =>
    rw [runWithin] at h
    split at h
    · exact absurd h (hresult s)
    · rename_i i hi
      simp only at h
      cases hstep : step p hosts i s with
      | ok _ r =>
        rw [hstep] at h
        refine ⟨r, ?_, ih h⟩
        rw [Program.next, hi, Option.map_some, hstep]
      | error f r =>
        rw [hstep] at h
        cases h

/-- A run can be made in parts: one that was cancelled goes on as if it had been granted more from
the start. -/
theorem runWithin_of_cancelled (h : runWithin p hosts m s = .error .cancelled s') (n : Nat) :
    runWithin p hosts (m + n) s = runWithin p hosts n s' :=
  (steps_of_cancelled h).runWithin n

end StackScript
