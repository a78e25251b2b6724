import StackScript.Proofs.Machine.Hosts
import StackScript.Proofs.Machine.Soundness

/-!
# The standard functions are sound

A world in which no value is missing stays one when its console, its random numbers or its clock
change, and when a global variable is set to a value that it holds. So the standard functions keep
it sound.
-/

namespace StackScript

namespace World.Sound

variable {n : Nat} {w : World}

/-- A global variable holds a value, also if it was never set. -/
theorem global (h : w.Sound n) (name : Bytes) : (w.global name).Held n := by
  unfold World.global
  cases hfind : w.globals.find? fun g => g.1 == name with
  | none => exact .scalar (by decide)
  | some g => exact h.globals g (List.mem_of_find?_eq_some hfind)

/-- Globals are held after one is set. -/
theorem held_setIn {name : Bytes} {c : Cell} (hc : c.Held n) {gs : List (Bytes × Cell)}
    (h : ∀ g ∈ gs, g.2.Held n) : ∀ g ∈ World.setIn name c gs, g.2.Held n := by
  induction gs with
  | nil => exact List.forall_mem_singleton.mpr hc
  | cons g gs ih =>
    obtain ⟨hg, hgs⟩ := List.forall_mem_cons.mp h
    unfold World.setIn
    split
    · exact List.forall_mem_cons.mpr ⟨hc, hgs⟩
    · exact List.forall_mem_cons.mpr ⟨hg, ih hgs⟩

/-- A world is sound after a global is set. -/
theorem setGlobal (h : w.Sound n) (name : Bytes) {c : Cell} (hc : c.Held n) :
    (w.setGlobal name c).Sound n := ⟨h.store, held_setIn hc h.globals⟩

/-- The arguments of a program are one more array. -/
theorem setArguments (h : w.Sound n) {args : List Bytes} (hargs : args.length ≤ maxCells) :
    (w.setArguments args).Sound (n + 1) := by
  have hsize : (args.map fun a => (some (.string a) : Cell)).toArray.size = args.length * 1 := by
    simp
  have hfull : ((Grid.ofCells? args.length 1
      (args.map fun a => some (.string a)).toArray).getD .empty).Full (n + 1) := by
    unfold Grid.ofCells?
    rw [dif_pos hsize]
    refine ⟨?_, fun c hc => ?_⟩
    · have hone : (1 : Int) ≤ maxCells := by decide
      simp only [Option.getD_some, Grid.sizeAllowed_iff]
      omega
    · simp only [Option.getD_some, List.mem_toArray, List.mem_map] at hc
      obtain ⟨a, -, rfl⟩ := hc
      exact .scalar (by simp [Value.kind])
  have hkey : Cell.Held (n + 1) (some (.array w.store.next)) := by
    rw [h.store.next]
    exact .array (Nat.lt_succ_self n)
  have hadded : World.Sound (n + 1) { w with store := w.store.add ((Grid.ofCells? args.length 1
      (args.map fun a => some (.string a)).toArray).getD .empty) } :=
    ⟨h.store.add hfull, fun g hg => (h.globals g hg).mono (Nat.le_succ n)⟩
  exact hadded.setGlobal _ hkey

end World.Sound

/-- Every standard function is sound. -/
theorem Host.standard_sound : ∀ f ∈ Host.standard.toArray, Host.Sound f.run := by
  intro f hf n
  refine Host.standard_keeps ?_ f hf
  exact
    { console := fun _ hw => ⟨hw.store, hw.globals⟩
      generator := fun _ hw => ⟨hw.store, hw.globals⟩
      clock := fun _ hw => ⟨hw.store, hw.globals⟩
      global := fun name hw => hw.global name
      setGlobal := fun name _ hw hc => hw.setGlobal name hc
      scalar := .scalar
      missing := fun h => absurd h (by rintro ⟨v, ⟨⟩, -⟩)
      outputFull := rfl
      inputFailed := rfl }

end StackScript
