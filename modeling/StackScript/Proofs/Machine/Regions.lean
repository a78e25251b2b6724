import StackScript.Proofs.Layout.Loops
import StackScript.Proofs.Machine.Frames

/-!
# Code that is left at its end only

An activation that is in a piece of code which is left at its end only (`Layout.Encloses`) stays
there until it comes to the end, whatever the functions do that it calls in the meantime
(`StepsVia.under`). If the code does not store into a slot, the slot holds what it held before.
-/

namespace StackScript

/-! ## Steps with a property -/

namespace StepsVia

variable {p : Program} {hosts : Array HostFunction} {good : State → Prop} {n : Nat} {s : State}

/-- The first of several steps, to a state with a property. -/
theorem exists_succ_iff {post : State → Prop} :
    (∃ s', StepsVia p hosts good (n + 1) s s' ∧ post s') ↔
      good s ∧ ∃ m, Steps p hosts 1 s m ∧ ∃ s', StepsVia p hosts good n m s' ∧ post s' := by
  constructor
  · rintro ⟨s', ⟨hs, m, hm, hrest⟩, hpost⟩
    exact ⟨hs, m, .single hm, s', hrest, hpost⟩
  · rintro ⟨hs, m, ⟨_, hm, rfl⟩, s', hrest, hpost⟩
    exact ⟨s', ⟨hs, _, hm, hrest⟩, hpost⟩

/-- Whether such steps lead to a state with a property can be computed. -/
instance decidable [DecidablePred good] (post : State → Prop) [DecidablePred post] :
    (n : Nat) → (s : State) → Decidable (∃ s', StepsVia p hosts good n s s' ∧ post s')
  | 0, s => decidable_of_iff (post s) (by simp [StepsVia])
  | n + 1, s =>
    have (m : State) : Decidable (∃ s', StepsVia p hosts good n m s' ∧ post s') :=
      StepsVia.decidable post n m
    decidable_of_iff _ exists_succ_iff.symm

end StepsVia

/-- Steps to a state with a property come to a first one. -/
theorem Reaches.first {p : Program} {hosts : Array HostFunction} {s : State} {post : State → Prop}
    (h : Reaches p hosts s post) :
    ∃ n s', StepsVia p hosts (fun r => ¬ post r) n s s' ∧ post s' := by
  obtain ⟨n, s', hs, hpost⟩ := h
  induction n generalizing s with
  | zero =>
    cases hs
    exact ⟨0, s', rfl, hpost⟩
  | succ n ih =>
    by_cases hnow : post s
    · exact ⟨0, s, rfl, hnow⟩
    · obtain ⟨m, hm, hrest⟩ := hs
      obtain ⟨k, r, hk, hr⟩ := ih hrest
      exact ⟨k + 1, r, ⟨hnow, m, hm, hk⟩, hr⟩

/-! ## Activations inside code -/

/-- A state is at a place, with so many callers. -/
def State.IsAt (place depth : Nat) (s : State) : Prop :=
  s.place = place ∧ s.callers.length = depth

instance (place depth : Nat) : DecidablePred (State.IsAt place depth) :=
  fun _ => inferInstanceAs (Decidable (_ ∧ _))

/-- A place is from `low` to `high`, in the code of the function that begins at `e`. -/
structure Program.Between (p : Program) (e low high place : Nat) : Prop where
  code : p.CodeOf e place
  low_le : low ≤ place
  le_high : place ≤ high

/-- The activation that has the given callers is between two places: it is the latest, or it goes on
there when the function returns that it has called. -/
inductive State.Under (p : Program) (e low high : Nat) (cs : List Caller) (s : State) : Prop
  | own (callers : s.callers = cs) (place : p.Between e low high s.place)
  | called (above : List Caller) (c : Caller) (callers : s.callers = above ++ c :: cs)
    (resume : p.Between e low high c.resume)

section

variable {L : Layout} {hosts : Array HostFunction} {e slot low high a b : Nat} {cs : List Caller}
  {s s' : State} {i : Instruction}

/-- An instruction before the end goes on inside. -/
theorem Layout.Encloses.target (h : L.Encloses e slot low high) (hp : L.program.Guarded)
    (hstay : L.program.JumpsStay) (ha : L.program.Between e low high a) (hne : a ≠ high)
    (hi : L.program.code[a]? = some i) (hb : i.op.Target i.operand.toNat a b) :
    L.program.Between e low high b := by
  have hlow := ha.low_le
  have hhigh := ha.le_high
  have hlt := h.lt
  rcases hb with ⟨hjump, rfl⟩ | ⟨hbranch, rfl⟩
  · exact ⟨ha.code.succ hp hi hjump (by omega), by omega, by omega⟩
  · obtain ⟨hlow', hhigh'⟩ := (h.keeps.all a i hlow (by omega) hi ha.code).branch hbranch
    obtain ⟨e', ha', hb'⟩ := hstay a i hi hbranch
    obtain rfl := ha.code.unique ha'
    exact ⟨hb', hlow', hhigh'⟩

/-- Keeping a frame leaves the callers where they go on. -/
theorem keepFrame_called (fr : Array Cell) (above : List Caller) (c : Caller) :
    ∃ above' c', keepFrame fr (above ++ c :: cs) = above' ++ c' :: cs ∧ c'.resume = c.resume := by
  rcases above with _ | ⟨⟨r, _ | kept⟩, above⟩
  · obtain ⟨r, _ | kept⟩ := c
    · exact ⟨[], ⟨r, some fr⟩, rfl, rfl⟩
    · exact ⟨[], ⟨r, some kept⟩, rfl, rfl⟩
  · exact ⟨⟨r, some fr⟩ :: above, c, rfl, rfl⟩
  · exact ⟨⟨r, some kept⟩ :: above, c, rfl, rfl⟩

/-- An activation inside code has at least its callers. -/
theorem State.Under.le_depth (h : s.Under L.program e low high cs) :
    cs.length ≤ s.callers.length := by
  cases h with
  | own hcallers => rw [hcallers]
  | called above c hcallers =>
    rw [hcallers, List.length_append, List.length_cons]
    omega

/-- With no more callers the activation is the latest. -/
theorem State.Under.own_of_depth (h : s.Under L.program e low high cs)
    (hdepth : s.callers.length = cs.length) :
    s.callers = cs ∧ L.program.Between e low high s.place := by
  cases h with
  | own hcallers hplace => exact ⟨hcallers, hplace⟩
  | called above c hcallers =>
    rw [hcallers, List.length_append, List.length_cons] at hdepth
    omega

/-- The activation is at no place outside. -/
theorem State.Under.not_isAt (h : s.Under L.program e low high cs) (ha : a < low ∨ high < a) :
    ¬ s.IsAt a cs.length := by
  rintro ⟨rfl, hdepth⟩
  obtain ⟨-, hplace⟩ := h.own_of_depth hdepth
  have hlow := hplace.low_le
  have hhigh := hplace.le_high
  omega

/-- A step of an activation that is not at the end stays inside. -/
theorem State.Under.next (h : L.Encloses e slot low high) (hp : L.program.Guarded)
    (hstay : L.program.JumpsStay) (hs : s.Settled L.program)
    (hcs : ∀ c ∈ cs, c.Kept L.program) (hunder : s.Under L.program e low high cs)
    (hend : ¬ s.IsAt high cs.length) (hnext : L.program.next hosts s = some (.ok () s')) :
    s'.Under L.program e low high cs := by
  obtain ⟨i, hi, hmoves⟩ := Program.next_moves hnext
  cases hunder with
  | own hcallers hplace =>
    -- The activation is the latest, so that the step is one of its own code.
    have hne : s.place ≠ high := fun heq => hend ⟨heq, by rw [hcallers]⟩
    have hkeeps := h.keeps.all s.place i hplace.low_le
      (Nat.lt_of_le_of_ne hplace.le_high hne) hi hplace.code
    have hbehind : i.op ≠ .jump → L.program.Between e low high (s.place + 1) := fun hjump =>
      h.target hp hstay hplace hne hi (.inl ⟨hjump, rfl⟩)
    cases hmoves with
    | enter hop => exact absurd hop (hs.op_ne_frame (hcallers ▸ hcs) hi)
    | store v hop _ _ hplace' _ hcallers' =>
      refine .own (hcallers'.trans hcallers) ?_
      rw [hplace']
      exact hbehind (by rw [hop]; decide)
    | call hop _ _ hcallers' =>
      refine .called [] ⟨s.place + 1, none⟩ ?_ (hbehind (by rw [hop]; decide))
      rw [hcallers', hcallers]
      rfl
    | ret c hop => exact absurd hop hkeeps.ret
    | other hop _ hcallers' hplace' =>
      exact .own (hcallers'.trans hcallers) (h.target hp hstay hplace hne hi hplace')
  -- Other activations are above: it is left as it is until the lowest of them returns.
  | called above c hcallers hresume =>
    cases hmoves with
    | enter _ _ hcallers' =>
      obtain ⟨above', c', habove, hc'⟩ := keepFrame_called s.frame above c
      exact .called above' c' (by rw [hcallers', hcallers, habove]) (hc' ▸ hresume)
    | store _ _ _ _ _ _ hcallers' => exact .called above c (hcallers'.trans hcallers) hresume
    | call _ _ _ hcallers' =>
      exact .called (⟨s.place + 1, none⟩ :: above) c (by rw [hcallers', hcallers]; rfl) hresume
    | ret c' _ hcallers' hplace' =>
      rw [hcallers] at hcallers'
      cases above with
      | nil =>
        obtain ⟨rfl, hrest⟩ := List.cons.inj hcallers'
        exact .own hrest.symm (hplace' ▸ hresume)
      | cons c'' above => exact .called above c (List.cons.inj hcallers').2.symm hresume
    | other _ _ hcallers' => exact .called above c (hcallers'.trans hcallers) hresume

/-- The code that an activation is inside does not store into the slot before its end. -/
theorem State.Under.not_storesInto (h : L.Encloses e slot low high)
    (hunder : s.Under L.program e low high cs) (hend : ¬ s.IsAt high cs.length)
    (hdepth : s.callers.length = cs.length) : ¬ L.program.StoresInto slot s.place := by
  rintro ⟨i, hi, hop, hslot⟩
  obtain ⟨-, hplace⟩ := hunder.own_of_depth hdepth
  have hne : s.place ≠ high := fun heq => hend ⟨heq, hdepth⟩
  exact (h.keeps.all s.place i hplace.low_le (Nat.lt_of_le_of_ne hplace.le_high hne) hi
    hplace.code).store hop hslot

/-- Up to the end of the code an activation stays inside, and does not store into the slot. -/
theorem StepsVia.under {n : Nat} (hsteps : StepsVia L.program hosts
      (fun r => ¬ r.IsAt high cs.length) n s s') (h : L.Encloses e slot low high)
    (hp : L.program.Guarded) (hstay : L.program.JumpsStay) (hs : s.Settled L.program)
    (hcs : ∀ c ∈ cs, c.Kept L.program) (hunder : s.Under L.program e low high cs) :
    s'.Under L.program e low high cs ∧
      StepsWithin L.program hosts cs.length slot n s s' ∧
      StepsVia L.program hosts (State.Under L.program e low high cs) n s s' := by
  induction n generalizing s with
  | zero =>
    cases hsteps
    exact ⟨hunder, rfl, rfl⟩
  | succ n ih =>
    obtain ⟨hend, m, hm, hrest⟩ := hsteps
    obtain ⟨hunder', hwithin, hvia⟩ :=
      ih hrest (hs.next hp hm) (hunder.next h hp hstay hs hcs hend hm)
    exact ⟨hunder', ⟨⟨hunder.le_depth, hunder.not_storesInto h hend⟩, m, hm, hwithin⟩,
      hunder, m, hm, hvia⟩

/-- The slot of an activation that is the latest is one of the frame in use. -/
theorem State.Holds.frame_of_callers {v : Option Cell} (h : s.Holds cs slot v)
    (hcallers : s.callers = cs) : s.frame[slot]? = v := by
  cases h with
  | own _ hframe => exact hframe
  | lent resume hcs =>
    rw [hcallers] at hcs
    exact absurd (congrArg List.length hcs) (by simp)
  | kept above resume fr hcs =>
    rw [hcallers] at hcs
    exact absurd (congrArg List.length hcs) (by simp; omega)

/-- Up to the end of the code, which the activation begins in, the slot holds what it held. -/
theorem StepsVia.holds {n : Nat} (hsteps : StepsVia L.program hosts
      (fun r => ¬ r.IsAt high cs.length) n s s') (h : L.Encloses e slot low high)
    (hp : L.program.Guarded) (hstay : L.program.JumpsStay) (hs : s.Settled L.program)
    (hcs : ∀ c ∈ cs, c.Kept L.program) (hcallers : s.callers = cs)
    (hplace : L.program.Between e low high s.place) : s'.Holds cs slot s.frame[slot]? := by
  obtain ⟨hunder, hwithin, -⟩ := hsteps.under h hp hstay hs hcs (.own hcallers hplace)
  exact hwithin.holds hp hcs hunder.le_depth hs (.own hcallers rfl)

end

end StackScript
