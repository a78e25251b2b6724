import StackScript.Proofs.Compile.Accesses
import StackScript.Proofs.Machine.Activations

/-!
# Variables and their slots

The code of a function accesses a variable in the slot of its first declaration, with one exception:
a `declare` stores into the slot of its own declaration. So a name has one slot in a function unless
it is declared again by a `declare`, and a variable that is stored into has the stored value when it
is read next, unless the store is that of such a `declare`: then it has the value from before.
-/

namespace StackScript

/-- The slots that the instructions on slots of a program are on, in order. -/
def Program.slots (p : Program) : List UInt64 := (slotCode p.code.toList).map Prod.snd

/-- One variable, one slot: where a function declares a name and where it accesses the name from
there on, the instructions are on the same slot. -/
def OneSlot (t : Tree Cell) (p : Program) : Prop :=
  ∀ (i j : Nat) (a b : Access), i < j → t.accesses[i]? = some a → t.accesses[j]? = some b →
    a.declares = true → a.owner = b.owner → a.name = b.name → p.slots[i]? = p.slots[j]?

/-- A run of a program executes the instruction of the access `i`, and comes later in the same
activation to that of the access `j`, on a slot into which the activation has not stored since. -/
structure ComesTo (p : Program) (hosts : Array HostFunction) (i j slot : Nat) (s s₁ s₂ : State) :
    Prop where
  reached : ∃ w n, Steps p hosts n (State.start p.code.size w) s
  first : p.slotPlaces[i]? = some s.place
  next : p.next hosts s = some (.ok () s₁)
  between : ∃ n, StepsWithin p hosts s₁.callers.length slot n s₁ s₂
  depth : s₂.callers.length = s₁.callers.length
  second : p.slotPlaces[j]? = some s₂.place
  slot : p.slots[j]?.map UInt64.toNat = some slot

section

variable {t : Tree Cell} {imports : List Import} {p : Program} {i j : Nat} {a b : Access}

/-! ## Slots of accesses -/

/-- An access has the slot of its variable. -/
theorem slots_eq_some (h : compile t imports = .ok p) (ha : t.accesses[i]? = some a) :
    ∃ k, a.slot? t.accesses (t.accesses.take i) = some k ∧ p.slots[i]? = some (UInt64.ofNat k) := by
  obtain ⟨k, hk, hget⟩ := (compile_fits h).get ha
  refine ⟨k, hk, ?_⟩
  rw [Program.slots, List.getElem?_map, hget]
  rfl

/-- A slot fits its operand. -/
theorem toNat_slot (h : compile t imports = .ok p) (hfits : p.code.size < 0x8000000000000000)
    (ha : t.accesses[i]? = some a) {k : Nat}
    (hk : a.slot? t.accesses (t.accesses.take i) = some k) : (UInt64.ofNat k).toNat = k := by
  have hlt := compile_slot_lt h ha hk
  exact UInt64.toNat_ofNat_of_lt' (by have : UInt64.size = 0x10000000000000000 := rfl; omega)

/-- Which accesses of a function are on the same slot. -/
theorem slots_eq_iff (h : compile t imports = .ok p) (hfits : p.code.size < 0x8000000000000000)
    (hij : i < j) (ha : t.accesses[i]? = some a) (hb : t.accesses[j]? = some b)
    (howner : a.owner = b.owner) :
    p.slots[i]? = p.slots[j]? ↔ a.name = b.name ∧ ¬ a.Redeclares (t.accesses.take i) ∧
      ¬ b.Redeclares (t.accesses.take j) := by
  obtain ⟨k, hk, hget⟩ := slots_eq_some h ha
  obtain ⟨m, hm, hget'⟩ := slots_eq_some h hb
  have hbefore : t.accesses.take i ++ [a] <+: t.accesses.take j := by
    have htake : t.accesses.take (i + 1) = t.accesses.take i ++ [a] := by
      rw [List.take_add_one, ha]
      rfl
    rw [← htake]
    exact List.take_prefix_take_left hij
  rw [← Access.slot_eq_iff (eq_take_append_cons ha) (eq_take_append_cons hb) hbefore howner hk hm,
    hget, hget', Option.some.injEq]
  constructor
  · intro heq
    rw [← toNat_slot h hfits ha hk, ← toNat_slot h hfits hb hm, heq]
  · rintro rfl
    rfl

/-- Names have one slot exactly if no `declare` is of a name that was declared before. -/
theorem oneSlot_iff (h : compile t imports = .ok p) (hfits : p.code.size < 0x8000000000000000) :
    OneSlot t p ↔ ∀ (i : Nat) (a : Access), t.accesses[i]? = some a →
      ¬ a.Redeclares (t.accesses.take i) := by
  constructor
  · intro hone i a ha hredeclares
    obtain ⟨a', hmem, howner, hdeclares, hname⟩ := mem_declaredBy.mp hredeclares.2
    obtain ⟨i', hi', ha'⟩ := List.mem_take_iff_getElem.mp hmem
    have hlt : i' < i := Nat.lt_of_lt_of_le hi' (Nat.min_le_left _ _)
    have hget : t.accesses[i']? = some a' := List.getElem?_eq_some_iff.mpr ⟨by omega, ha'⟩
    have hslots := hone i' i a' a hlt hget ha hdeclares howner hname
    exact ((slots_eq_iff h hfits hlt hget ha howner).mp hslots).2.2 hredeclares
  · intro hnone i j a b hij ha hb _ howner hname
    exact (slots_eq_iff h hfits hij ha hb howner).mpr ⟨hname, hnone i a ha, hnone j b hb⟩

/-! ## Runs -/

/-- What a variable that was stored into has when it is read next. -/
theorem ComesTo.reads {hosts : Array HostFunction} {k : Nat} {s s₁ s₂ : State}
    (hrun : ComesTo p hosts i j k s s₁ s₂) (h : compile t imports = .ok p)
    (hfits : p.code.size < 0x8000000000000000) (ha : t.accesses[i]? = some a)
    (hb : t.accesses[j]? = some b) (hstore : a.op = .store) (hload : b.op = .load)
    (howner : a.owner = b.owner) (hname : a.name = b.name) :
    ∃ v, p.next hosts s₂ =
        some (.ok () { s₂ with place := s₂.place + 1, stack := v :: s₂.stack }) ∧
      if a.Redeclares (t.accesses.take i) then s.frame[k]? = some v
      else s.stack.head? = some v := by
  obtain ⟨L, rfl, hL⟩ := compile_layout h hfits
  obtain ⟨m, q, o, hm, hq, ho, hop, hoperand⟩ := compile_slot h ha
  obtain ⟨l, r, o', hl, hr, ho', hop', hoperand'⟩ := compile_slot h hb
  -- The places and the slots are those of the run.
  obtain ⟨⟨w, n, hsteps⟩, hfirst, hnext, ⟨n', hbetween⟩, hdepth, hsecond, hslot⟩ := hrun
  cases hq.symm.trans hfirst
  cases hr.symm.trans hsecond
  have hk : o'.operand.toNat = k := by
    obtain ⟨l', hl', hget⟩ := slots_eq_some h hb
    cases hl.symm.trans hl'
    rw [hget, ← hoperand'] at hslot
    exact Option.some.inj hslot
  have hl' : o'.operand.toNat = l := by rw [hoperand', toNat_slot h hfits hb hl]
  have hm' : o.operand.toNat = m := by rw [hoperand, toNat_slot h hfits ha hm]
  have hs : s.Settled L.program := .reached hL.guarded hsteps fun hentry => by
    obtain ⟨i, hi, hframe⟩ := hentry
    cases hi.symm.trans ho
    rw [hop, hstore] at hframe
    cases hframe
  obtain ⟨v, hstack, hlt, hframe⟩ :=
    hbetween.frame_of_store hL.guarded hs ho (hop.trans hstore) hnext hdepth
  obtain ⟨hle, hsame⟩ := Access.slot_of_load (eq_take_append_cons ha) hload howner hname hm hl
  obtain ⟨u, hu, hvalue⟩ : ∃ u, s₂.frame[k]? = some u ∧
      if a.Redeclares (t.accesses.take i) then s.frame[k]? = some u
      else s.stack.head? = some u := by
    by_cases hredeclares : a.Redeclares (t.accesses.take i)
    · -- The store went to another slot, behind that of the variable.
      have hne : ¬ l = m := fun heq => hsame.mp heq hredeclares
      refine ⟨s.frame[k], ?_, ?_⟩
      · rw [hframe, Array.getElem?_setIfInBounds_ne (by omega), Array.getElem?_eq_getElem]
      · rw [if_pos hredeclares, Array.getElem?_eq_getElem]
    · have heq := hsame.mpr hredeclares
      refine ⟨v, ?_, by rw [if_neg hredeclares, hstack]⟩
      rw [hframe, hm', ← heq, ← hl', hk, Array.getElem?_setIfInBounds_self_of_lt (by omega)]
  refine ⟨u, ?_, hvalue⟩
  have hhas : L.Has s₂.place .load k := ⟨o', ho', hop'.trans hload, hk⟩
  have hbounds := (Array.getElem?_eq_some_iff.mp hu).1
  rw [next_load hhas hbounds, Array.getD_eq_getD_getElem?, hu]
  rfl

end

/-- Variables and slots. The instructions on slots of a compiled program are those of the accesses
of its tree, in order. Two accesses of a function are on the same slot exactly if they are to the
same name and neither is the store of a `declare` whose name was declared before; so every name has
one slot in a function exactly if no `declare` is of such a name. Where a run stores into a variable
and comes in the same activation to a load of it, with no store into the slot of the load between
them, the load pushes the stored value, unless the store is that of a `declare` whose name was
declared before: then it pushes what the slot had before. -/
theorem variables_in_slots {t : Tree Cell} {imports : List Import} {p : Program}
    (hosts : Array HostFunction) (h : compile t imports = .ok p)
    (hfits : p.code.size < 0x8000000000000000) :
    (slotCode p.code.toList).map Prod.fst = t.accesses.map Access.op ∧
    (∀ (i j : Nat) (a b : Access), i < j → t.accesses[i]? = some a → t.accesses[j]? = some b →
      a.owner = b.owner → (p.slots[i]? = p.slots[j]? ↔ a.name = b.name ∧
        ¬ a.Redeclares (t.accesses.take i) ∧ ¬ b.Redeclares (t.accesses.take j))) ∧
    (OneSlot t p ↔ ∀ (i : Nat) (a : Access), t.accesses[i]? = some a →
      ¬ a.Redeclares (t.accesses.take i)) ∧
    ∀ (i j k : Nat) (a b : Access) (s s₁ s₂ : State), t.accesses[i]? = some a →
      t.accesses[j]? = some b → a.op = .store → b.op = .load → a.owner = b.owner →
      a.name = b.name → ComesTo p hosts i j k s s₁ s₂ →
      ∃ v, p.next hosts s₂ =
          some (.ok () { s₂ with place := s₂.place + 1, stack := v :: s₂.stack }) ∧
        if a.Redeclares (t.accesses.take i) then s.frame[k]? = some v
        else s.stack.head? = some v := by
  refine ⟨(compile_fits h).ops, ?_, oneSlot_iff h hfits, ?_⟩
  · intro i j a b hij ha hb howner
    exact slots_eq_iff h hfits hij ha hb howner
  · intro i j k a b s s₁ s₂ ha hb hstore hload howner hname hrun
    exact hrun.reads h hfits ha hb hstore hload howner hname

/-- A program that calls a function between the declarations of a variable, declares it again and
gives it back. -/
def Tree.declaredAgain : Tree Cell :=
  ⟨{}, [.define {} "f" ["a"] (.assign {} "a" (.literal {} (some (.integer 5)))),
    .declare {} "x" (.literal {} (some (.integer 1))),
    .perform {} "f" [.literal {} (some (.integer 7))],
    .declare {} "x" (.literal {} (some (.integer 3))),
    .giveBack {} (.load {} "x")]⟩

/-- The run of the program stores one and later three into the variable. It would read one behind
the first store, whatever the function did that was called in between, and it reads one right behind
the second. -/
theorem variables_in_slots_declaredAgain : ∃ p s s₁ s₂ r r₁, compile .declaredAgain [] = .ok p ∧
    s.stack = [some (.integer 1)] ∧ ComesTo p #[] 2 4 0 s s₁ s₂ ∧
    p.next #[] s₂ = some (.ok () { s₂ with place := 16, stack := [some (.integer 1)] }) ∧
    r.stack = [some (.integer 3)] ∧ ComesTo p #[] 3 4 0 r r₁ r₁ ∧
    p.next #[] r₁ = some (.ok () { r₁ with place := 16, stack := [some (.integer 1)] }) := by
  obtain ⟨p, h, hfits, ⟨h2, h3, h4, hslot⟩, ⟨s, hs, hplace, hstack, s₁, ⟨_, hnext, rfl⟩, hdepth,
      s₂, hbetween, hdepth', hplace₂, hstack₂⟩, r, hr, hplace', hstack', hframe, r₁,
      ⟨_, hnext', rfl⟩, hplace₁, hstack₁⟩ :=
    exists_compile .declaredAgain [] (fun p => p.code.size < 0x8000000000000000 ∧
      (p.slotPlaces[2]? = some 9 ∧ p.slotPlaces[3]? = some 14 ∧ p.slotPlaces[4]? = some 15 ∧
        p.slots[4]?.map UInt64.toNat = some 0) ∧
      (∃ s, Steps p #[] 3 (State.start p.code.size {}) s ∧ s.place = 9 ∧
        s.stack = [some (.integer 1)] ∧ ∃ s₁, Steps p #[] 1 s s₁ ∧ s₁.callers.length = 1 ∧
        ∃ s₂, StepsWithin p #[] 1 0 11 s₁ s₂ ∧ s₂.callers.length = 1 ∧ s₂.place = 15 ∧
          s₂.stack = []) ∧
      ∃ r, Steps p #[] 14 (State.start p.code.size {}) r ∧ r.place = 14 ∧
        r.stack = [some (.integer 3)] ∧ r.frame[0]? = some (some (.integer 1)) ∧
        ∃ r₁, Steps p #[] 1 r r₁ ∧ r₁.place = 15 ∧ r₁.stack = []) (by decide +kernel)
  obtain ⟨-, -, -, hreads⟩ := variables_in_slots #[] h hfits
  have hfirst : ComesTo p #[] 2 4 0 s s₁ s₂ :=
    ⟨⟨{}, 3, hs⟩, by rw [h2, hplace], hnext, ⟨11, by rwa [hdepth]⟩, by rw [hdepth, hdepth'],
      by rw [h4, hplace₂], hslot⟩
  have hsecond : ComesTo p #[] 3 4 0 r r₁ r₁ :=
    ⟨⟨{}, 14, hr⟩, by rw [h3, hplace'], hnext', ⟨0, rfl⟩, rfl, by rw [h4, hplace₁], hslot⟩
  obtain ⟨v, hv, hvalue⟩ := hreads 2 4 0 _ _ s s₁ s₂ rfl rfl rfl rfl rfl rfl hfirst
  obtain ⟨u, hu, hvalue'⟩ := hreads 3 4 0 _ _ r r₁ r₁ rfl rfl rfl rfl rfl rfl hsecond
  rw [if_neg (by decide), hstack] at hvalue
  rw [if_pos (by decide), hframe] at hvalue'
  cases hvalue
  cases hvalue'
  rw [hplace₂, hstack₂] at hv
  rw [hplace₁, hstack₁] at hu
  exact ⟨p, s, s₁, s₂, r, r₁, h, hstack, hfirst, hv, hstack', hsecond, hu⟩

/-- A program that declares a variable twice and gives it back. -/
def Tree.declaredTwice : Tree Cell :=
  ⟨{}, [.declare {} "x" (.literal {} (some (.integer 1))),
    .declare {} "x" (.literal {} (some (.integer 2))), .giveBack {} (.load {} "x")]⟩

/-- A name that is declared twice does not have one slot: the second store is into another one than
the load is from, which pushes what was stored first. -/
theorem not_oneSlot_declaredTwice : ∃ p, compile .declaredTwice [] = .ok p ∧
    ¬ OneSlot .declaredTwice p ∧
    ∃ s, Steps p #[] 6 (State.start p.code.size {}) s ∧ s.place = 6 ∧
      s.stack = [some (.integer 1)] := by
  obtain ⟨p, h, hne, hrun⟩ := exists_compile .declaredTwice []
    (fun p => p.slots[1]? ≠ p.slots[2]? ∧ ∃ s, Steps p #[] 6 (State.start p.code.size {}) s ∧
      s.place = 6 ∧ s.stack = [some (.integer 1)]) (by decide +kernel)
  refine ⟨p, h, fun hone => hne ?_, hrun⟩
  exact hone 1 2 _ _ (by decide) rfl rfl rfl rfl rfl

end StackScript
