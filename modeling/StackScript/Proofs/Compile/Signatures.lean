import Mathlib.Data.List.Induction
import StackScript.Compile.Imports
import StackScript.Proofs.Generate.Generation

/-!
# The signatures that calls are checked against

The functions of the host are declared first, then those of the program, where generation comes to
them. If the names of a program's functions are distinct, a call of such a name finds its
declaration, and a call of any other name finds a function of the host, at an index that is less
than the number of declarations.
-/

namespace StackScript

namespace Symbols

/-- A definition that replaces another one replaces what is found for its name. -/
theorem find?_redefined (fs : List Signature) (name other : Bytes) (declared minimum : Int) :
    (fs.map fun f => if f.name == name then { f with declared, minimum } else f).find?
        (fun f => f.name == other) =
      (fs.find? fun f => f.name == other).map fun f =>
        if f.name == name then { f with declared, minimum } else f := by
  rw [List.find?_map]
  have hp : ((fun f : Signature => f.name == other) ∘ fun f =>
      if f.name == name then { f with declared, minimum } else f) = fun f => f.name == other := by
    funext f
    simp only [Function.comp_apply]
    split <;> rfl
  rw [hp]

/-- A definition does not change what other names mean. -/
theorem function?_define_of_ne (s : Symbols) {name other : Bytes} (h : other ≠ name)
    (declared minimum : Int) :
    (s.define name declared minimum).function? other = s.function? other := by
  unfold define
  split
  · unfold function?
    rw [find?_redefined]
    cases hf : s.functions.find? fun f => f.name == other with
    | none => rfl
    | some f =>
      have hname := List.find?_some hf
      simp only [beq_iff_eq] at hname
      simp [hname, h]
  · unfold function?
    rw [List.find?_append]
    simp [h.symm]

/-- A definition gives its name a meaning. -/
theorem function?_define_self (s : Symbols) (name : Bytes) (declared minimum : Int) :
    ∃ i, (s.define name declared minimum).function? name = some ⟨name, declared, minimum, i⟩ := by
  unfold define
  split
  · rename_i hsome
    obtain ⟨f, hf⟩ := Option.isSome_iff_exists.mp hsome
    refine ⟨f.dispatch, ?_⟩
    unfold function? at hf ⊢
    have hname := List.find?_some hf
    rw [find?_redefined, hf, Option.map_some, if_pos hname]
    simp only [beq_iff_eq] at hname
    rw [← hname]
  · rename_i hnone
    refine ⟨s.functions.length, ?_⟩
    rw [Option.not_isSome_iff_eq_none] at hnone
    unfold function? at hnone ⊢
    rw [List.find?_append, hnone]
    simp

/-- A name that is not defined keeps its meaning. -/
theorem function?_defineAll_of_none {fs : List Function} {name : Bytes}
    (h : functionNamed? fs name = none) (s : Symbols) :
    (s.defineAll fs).function? name = s.function? name := by
  induction fs generalizing s with
  | nil => rfl
  | cons d fs ih =>
    unfold functionNamed? at h ih
    rw [List.find?_cons] at h
    split at h
    · cases h
    · rename_i hne
      change ((s.define d.name d.params.length 0).defineAll fs).function? name = _
      rw [ih h, function?_define_of_ne]
      simpa using Ne.symm (by simpa using hne)

/-- A name that is defined once means its definition. -/
theorem function?_defineAll_of_some {fs : List Function} {name : Bytes} {d : Function}
    (h : functionNamed? fs name = some d) (hnodup : (fs.map Function.name).Nodup) (s : Symbols) :
    ∃ i, (s.defineAll fs).function? name = some ⟨name, d.params.length, 0, i⟩ := by
  induction fs generalizing s with
  | nil => cases h
  | cons e fs ih =>
    rw [List.map_cons, List.nodup_cons] at hnodup
    change ∃ i, ((s.define e.name e.params.length 0).defineAll fs).function? name = _
    unfold functionNamed? at h
    rw [List.find?_cons] at h
    split at h
    · rename_i hname
      cases h
      obtain rfl : d.name = name := by simpa using hname
      have hnone : functionNamed? fs d.name = none := by
        unfold functionNamed?
        rw [List.find?_eq_none]
        intro f hf hfname
        exact hnodup.1 (List.mem_map.mpr ⟨f, hf, by simpa using hfname⟩)
      rw [function?_defineAll_of_none hnone]
      exact function?_define_self s d.name d.params.length 0
    · exact ih h hnodup.2 _

/-- The functions of the host, by their declarations. -/
def hosted (imports : List Import) : Symbols :=
  imports.foldl (fun s d => s.defineHost d.name d.minimum) {}

/-- Declarations open no loops. -/
theorem hosted_loops (imports : List Import) : (hosted imports).loops = [] := by
  have hrun : ∀ (imports : List Import) (s : Symbols),
      (imports.foldl (fun s d => s.defineHost d.name d.minimum) s).loops = s.loops := by
    intro imports
    induction imports with
    | nil => exact fun s => rfl
    | cons d imports ih => exact fun s => (ih _).trans (define_loops ..)
  exact hrun imports {}

/-- All functions belong to the host, and their indices are less than their number. -/
structure AllHosted (s : Symbols) (n : Nat) : Prop where
  length : s.functions.length ≤ n
  host : ∀ f ∈ s.functions, f.isHost = true ∧ f.dispatch < s.functions.length

/-- Declaring one more function of the host. -/
theorem AllHosted.define {s : Symbols} {n : Nat} (h : AllHosted s n) (name : Bytes)
    (minimum : Int) : AllHosted (s.defineHost name minimum) (n + 1) := by
  obtain ⟨hlength, hhost⟩ := h
  unfold defineHost Symbols.define
  split
  · refine ⟨by simpa using Nat.le_succ_of_le hlength, fun f hf => ?_⟩
    obtain ⟨g, hg, rfl⟩ := List.mem_map.mp hf
    rw [List.length_map]
    split
    · exact ⟨rfl, (hhost g hg).2⟩
    · exact hhost g hg
  · refine ⟨by simpa using hlength, fun f hf => ?_⟩
    rw [List.length_append, List.length_singleton]
    rcases List.mem_append.mp hf with hf | hf
    · exact ⟨(hhost f hf).1, Nat.lt_succ_of_lt (hhost f hf).2⟩
    · obtain rfl := List.mem_singleton.mp hf
      exact ⟨rfl, Nat.lt_succ_self _⟩

/-- The functions that declarations declare belong to the host. -/
theorem hosted_allHosted (imports : List Import) : AllHosted (hosted imports) imports.length := by
  have hrun : ∀ (imports : List Import) (s : Symbols) (n : Nat), AllHosted s n →
      AllHosted (imports.foldl (fun s d => s.defineHost d.name d.minimum) s)
        (n + imports.length) := by
    intro imports
    induction imports with
    | nil => exact fun s n h => h
    | cons d imports ih =>
      intro s n h
      have := ih _ _ (h.define d.name d.minimum)
      rwa [Nat.add_assoc, Nat.add_comm 1] at this
  have := hrun imports {} 0 ⟨Nat.le_refl _, nofun⟩
  rwa [Nat.zero_add] at this

/-- Where names are distinct, the declarations are in the order of the indices. -/
theorem hosted_functions {imports : List Import} (h : (imports.map Import.name).Nodup) :
    (hosted imports).functions =
      imports.mapIdx fun i d => ⟨d.name, hostArity, d.minimum, i⟩ := by
  induction imports using List.reverseRecOn with
  | nil => rfl
  | append_singleton imports d ih =>
    rw [List.map_append, List.nodup_append] at h
    have ih := ih h.1
    have hnone : (hosted imports).function? d.name = none := by
      unfold function?
      rw [ih, List.find?_eq_none]
      intro f hf hname
      obtain ⟨i, hi, rfl⟩ := List.mem_mapIdx.mp hf
      exact h.2.2 _ (List.mem_map_of_mem (List.getElem_mem hi)) d.name (by simp)
        (by simpa using hname)
    have hstep : hosted (imports ++ [d]) = (hosted imports).defineHost d.name d.minimum := by
      unfold hosted
      rw [List.foldl_append]
      rfl
    rw [hstep]
    unfold defineHost Symbols.define
    rw [hnone, if_neg (by simp), List.mapIdx_append]
    simp [ih]

end Symbols

end StackScript
