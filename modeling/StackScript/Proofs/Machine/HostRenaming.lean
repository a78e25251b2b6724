import StackScript.Proofs.Machine.Renaming

/-!
# Host functions do not see keys

No standard function of the host can tell corresponding arguments and worlds apart: an array shows
its size only, and the functions hand on the cells that they were given or values that are no
arrays. None of them makes an array, so the renaming stays as it is.
-/

namespace StackScript

variable {ρ : Nat → Nat → Prop}

namespace World.Renamed

variable {w w' : World}

/-- The variables of a name correspond. -/
theorem global (h : World.Renamed ρ w w') (name : Bytes) :
    (w.global name).Renamed ρ (w'.global name) := by
  unfold World.global
  have hglobals := h.globals
  generalize w.globals = gs, w'.globals = gs' at hglobals
  induction hglobals with
  | nil => exact .scalar (by decide)
  | @cons g g' gs gs' hg _ ih =>
    rw [List.find?_cons, List.find?_cons, hg.1]
    cases g.1 == name with
    | true => exact hg.2
    | false => exact ih

/-- A variable may be set to corresponding contents. -/
theorem setGlobal (h : World.Renamed ρ w w') (name : Bytes) {c d : Cell} (hc : c.Renamed ρ d) :
    World.Renamed ρ (w.setGlobal name c) (w'.setGlobal name d) := by
  refine { h with globals := ?_ }
  have hset : ∀ {gs gs' : List (Bytes × Cell)}, List.Forall₂ (GlobalRenamed ρ) gs gs' →
      List.Forall₂ (GlobalRenamed ρ) (World.setIn name c gs) (World.setIn name d gs') := by
    intro gs gs' hgs
    induction hgs with
    | nil => exact .cons ⟨rfl, hc⟩ .nil
    | @cons g g' gs gs' hg hrest ih =>
      unfold World.setIn
      rw [hg.1]
      split
      · exact .cons ⟨rfl, hc⟩ hrest
      · exact .cons hg ih
  exact hset h.globals

/-- The arguments of a program may be added. -/
theorem setArguments (h : World.Renamed ρ w w') (args : List Bytes) :
    World.Renamed (addPair ρ w.store.next w'.store.next) (w.setArguments args)
      (w'.setArguments args) := by
  have hmore : ∀ k l, ρ k l → addPair ρ w.store.next w'.store.next k l := fun _ _ => .inl
  have hcells : ∀ args : List Bytes, Cell.AllRenamed (addPair ρ w.store.next w'.store.next)
      (args.map fun a => some (.string a)) (args.map fun a => some (.string a)) := by
    intro args
    induction args with
    | nil => exact .nil
    | cons a args ih => exact .cons (.scalar nofun) ih
  have hworld : World.Renamed (addPair ρ w.store.next w'.store.next)
      { w with store := w.store.add ((Grid.ofCells? args.length 1
        (args.map fun a => some (.string a)).toArray).getD .empty) }
      { w' with store := w'.store.add ((Grid.ofCells? args.length 1
        (args.map fun a => some (.string a)).toArray).getD .empty) } := by
    refine { h with store := h.store.add ?_, globals := h.globals.imp fun _ _ hg => hg.mono hmore }
    unfold Grid.ofCells?
    split
    · exact ⟨rfl, rfl, hcells args⟩
    · exact ⟨rfl, rfl, .nil⟩
  exact hworld.setGlobal _ ⟨_, rfl, _, rfl, .inr ⟨rfl, rfl⟩⟩

end World.Renamed

namespace Host

/-- What computations of the host do in worlds that correspond. -/
abbrev Same (ρ : Nat → Nat → Prop) (values : α → β → Prop) (x : Host α) (y : Host β) : Prop :=
  Corresponds (World.Renamed ρ) values x y

namespace Same

variable {c d : Cell} {cs ds : List Cell}

/-- Renamed values are asked for alike. -/
theorem value (hc : c.Renamed ρ d) : Same ρ (Value.Renamed ρ) (Host.value c) (Host.value d) := by
  cases c with
  | none =>
    obtain rfl := hc
    exact .throw _
  | some v =>
    obtain ⟨w, rfl, hw⟩ := hc
    exact .pure hw

/-- Renamed values have one text. -/
theorem text (hc : c.Renamed ρ d) : Same ρ Eq (Host.text c) (Host.text d) :=
  (value hc).bind fun _ _ hv => .get fun _ _ h => .pure (h.store.text hv).symm

/-- Writing does not look at keys. -/
theorem write (s : Bytes) : Same ρ Eq (Host.write s) (Host.write s) := by
  rintro ⟨store, globals, console, generator, clock⟩
    ⟨store', globals', console', generator', clock'⟩ h
  obtain rfl : console' = console := h.console
  unfold Host.write
  split
  · exact ⟨rfl, { h with console := rfl }⟩
  · exact ⟨rfl, h⟩

/-- Renamed values are written alike. -/
theorem writeAll (hcs : Cell.AllRenamed ρ cs ds) :
    Same ρ Eq (Host.writeAll cs) (Host.writeAll ds) := by
  induction hcs with
  | nil => exact .pure rfl
  | cons hc _ ih =>
    refine (text hc).bind fun s t hst => ?_
    obtain rfl := hst
    exact (write s).bind fun _ _ _ => ih

/-- Drawing does not look at keys. -/
theorem random (draw : Generator → α × Generator) :
    Same ρ Eq (Host.random draw) (Host.random draw) := by
  intro w w' h
  unfold Host.random
  rw [h.generator]
  exact ⟨rfl, { h with generator := rfl }⟩

/-- A value that is no array is given alike. -/
theorem scalar {v : Value} (h : v.kind ≠ .array) :
    Same ρ (Cell.Renamed ρ) (Pure.pure (some v)) (Pure.pure (some v)) := .pure (.scalar h)

/-- Numbers are drawn alike between renamed bounds. -/
theorem randomBetween (integer : Bool) {lo lo' hi hi' : Cell} (hlo : lo.Renamed ρ lo')
    (hhi : hi.Renamed ρ hi') :
    Same ρ (Cell.Renamed ρ) (Host.randomBetween integer lo hi)
      (Host.randomBetween integer lo' hi') := by
  refine (value hlo).bind fun a a' ha => (value hhi).bind fun b b' hb => ?_
  rw [ha.toInteger, hb.toInteger, ha.toReal, hb.toReal]
  cases integer with
  | true =>
    refine (random _).bind fun n m hn => ?_
    obtain rfl := hn
    exact scalar nofun
  | false =>
    refine (random _).bind fun x y hx => ?_
    obtain rfl := hx
    exact scalar nofun

end Same

/-- Output does not look at keys. -/
theorem output_respectsKeys : RespectsKeys output :=
  fun _ _ _ hargs => (Same.writeAll hargs).bind fun _ _ _ => Same.scalar nofun

/-- Input does not look at keys. -/
theorem input_respectsKeys : RespectsKeys input := by
  intro ρ args args' hargs
  refine (Same.writeAll hargs).bind fun _ _ _ => .get fun w w' h => ?_
  rw [h.console]
  cases w.console.readLine? with
  | none => exact .throw _
  | some read =>
    exact .bind (.modify fun _ _ _ => { h with console := rfl }) fun _ _ _ => Same.scalar nofun

/-- A conversion of the first argument that gives the same for corresponding values, and no
array. -/
theorem ofFirst_respectsKeys {default : Value} {f : Value → Value}
    (hdefault : default.kind ≠ .array) (hkind : ∀ v, (f v).kind ≠ .array)
    (hsame : ∀ {ρ : Nat → Nat → Prop} {v w : Value}, v.Renamed ρ w → f w = f v) :
    RespectsKeys (ofFirst default f) := by
  intro ρ args args' hargs
  cases hargs with
  | nil => exact Same.scalar hdefault
  | cons hc _ =>
    refine (Same.value hc).bind fun v w hv => ?_
    rw [hsame hv]
    exact Same.scalar (hkind v)

/-- A dimension does not look at keys. -/
theorem dimension_respectsKeys {f : Grid → Nat}
    (hsame : ∀ {ρ : Nat → Nat → Prop} {g h : Grid}, g.Renamed ρ h → f h = f g) :
    RespectsKeys (dimension f) := by
  intro ρ args args' hargs
  cases hargs with
  | nil => exact Same.scalar nofun
  | @cons c d _ _ hc _ =>
    rcases c with _ | v
    · obtain rfl := hc
      exact Same.scalar nofun
    · obtain ⟨w, rfl, hw⟩ := hc
      cases v with
      | array k =>
        obtain ⟨l, rfl, hl⟩ := hw
        refine .get fun w w' h => ?_
        rw [hsame (h.store.grids hl)]
        exact Same.scalar nofun
      | _ =>
        obtain rfl := hw
        exact Same.scalar nofun

/-- A random number does not look at keys. -/
theorem randomNumber_respectsKeys : RespectsKeys randomNumber := by
  intro ρ args args' hargs
  cases hargs with
  | nil =>
    refine (Same.random _).bind fun x y hx => ?_
    obtain rfl := hx
    exact Same.scalar nofun
  | cons hc hrest =>
    cases hrest with
    | nil =>
      refine (Same.value hc).bind fun v w hv => ?_
      unfold Value.isInteger
      rw [hv.kind]
      exact Same.randomBetween _ (.scalar nofun) hc
    | cons hd _ =>
      refine (Same.value hc).bind fun v w hv => ?_
      unfold Value.isInteger
      rw [hv.kind]
      exact Same.randomBetween _ hc hd

/-- A colour does not look at keys. -/
theorem setColour_respectsKeys (base : Nat) : RespectsKeys (setColour base) := by
  intro ρ args args' hargs
  cases hargs with
  | nil => exact Same.scalar nofun
  | cons hc _ =>
    refine (Same.text hc).bind fun s t hst => ?_
    obtain rfl := hst
    cases colours.lookup s with
    | none => exact Same.scalar nofun
    | some n => exact (Same.write _).bind fun _ _ _ => Same.scalar nofun

/-- The title does not look at keys. -/
theorem setTitle_respectsKeys : RespectsKeys setTitle := by
  intro ρ args args' hargs
  cases hargs with
  | nil => exact Same.scalar nofun
  | cons hc _ =>
    refine (Same.text hc).bind fun s t hst => ?_
    obtain rfl := hst
    exact (Same.write _).bind fun _ _ _ => .pure hc

/-- The cursor does not look at keys. -/
theorem setCursor_respectsKeys : RespectsKeys setCursor := by
  intro ρ args args' hargs
  -- Only a call with exactly two arguments moves the cursor.
  rcases hargs with _ | ⟨hx, _ | ⟨hy, _ | ⟨hz, hrest⟩⟩⟩
  · exact Same.scalar nofun
  · exact Same.scalar nofun
  · refine (Same.value hx).bind fun x x' hx => (Same.value hy).bind fun y y' hy => ?_
    unfold coordinate
    rw [hx.toInteger, hy.toInteger]
    exact (Same.write _).bind fun _ _ _ => Same.scalar nofun
  · exact Same.scalar nofun

/-- Reading a global does not look at keys. -/
theorem getGlobal_respectsKeys : RespectsKeys getGlobal := by
  intro ρ args args' hargs
  cases hargs with
  | nil => exact Same.scalar nofun
  | cons hc _ =>
    refine (Same.text hc).bind fun s t hst => .get fun w w' h => ?_
    obtain rfl := hst
    exact .pure (h.global s)

/-- Setting a global does not look at keys. -/
theorem setGlobal_respectsKeys : RespectsKeys setGlobal := by
  intro ρ args args' hargs
  rcases hargs with _ | ⟨hc, _ | ⟨hd, hrest⟩⟩
  · exact Same.scalar nofun
  · exact Same.scalar nofun
  · refine (Same.text hc).bind fun s t hst => ?_
    obtain rfl := hst
    exact .bind (.modify fun w w' h => h.setGlobal s hd) fun _ _ _ => .pure hd

/-- The time does not look at keys. -/
theorem time_respectsKeys : RespectsKeys time := by
  intro ρ args args' _ w w' h
  unfold time
  rw [h.clock]
  exact ⟨.scalar nofun, { h with clock := rfl }⟩

/-- No standard function of the host sees keys. -/
theorem standard_respectsKeys : ∀ f ∈ standard.toArray, RespectsKeys f.run := by
  simp only [standard, List.mem_toArray, List.forall_mem_cons]
  refine ⟨output_respectsKeys, input_respectsKeys, ?_, ?_, ?_, ?_, ?_, ?_, ?_,
    randomNumber_respectsKeys, setTitle_respectsKeys, setColour_respectsKeys 40,
    setColour_respectsKeys 30, setCursor_respectsKeys, fun _ _ _ _ => Same.scalar nofun,
    getGlobal_respectsKeys, setGlobal_respectsKeys, time_respectsKeys,
    fun _ _ _ _ => Same.scalar nofun, nofun⟩
  · exact ofFirst_respectsKeys nofun (fun _ => nofun) fun h => by rw [h.toReal]
  · exact ofFirst_respectsKeys nofun (fun _ => nofun) fun h => by rw [h.toInteger]
  · intro ρ args args' hargs
    cases hargs with
    | nil => exact Same.scalar nofun
    | cons hc _ =>
      refine (Same.text hc).bind fun s t hst => ?_
      obtain rfl := hst
      exact Same.scalar nofun
  · exact ofFirst_respectsKeys nofun (fun _ => nofun) fun h => by rw [h.toReal]
  · exact ofFirst_respectsKeys nofun (fun _ => nofun) fun h => by rw [h.toReal]
  · exact dimension_respectsKeys fun h => h.rows
  · exact dimension_respectsKeys fun h => h.cols

end Host

end StackScript
