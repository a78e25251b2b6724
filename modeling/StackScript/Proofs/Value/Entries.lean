import StackScript.Proofs.Number.Zeros
import StackScript.Proofs.Value.Pool

/-!
# Constants entered one after another

Constants that are identical are equal, but for the two zeros among the real numbers. So when
literals are entered into a pool in order, each stands for itself, and a zero for the first zero
that was entered (`entryOf_addAll`, `entryOf_cases`).
-/

namespace StackScript

/-- Zeros among the real numbers. -/
def Cell.isZeroReal : Cell → Bool
  | some (.real x) => x.isZero
  | _ => false

/-- Constants that are identical are equal, unless both are zeros. -/
theorem Cell.identical_cases {e v : Cell} (h : e.identical v = true) :
    e = v ∨ e.isZeroReal = true ∧ v.isZeroReal = true := by
  cases e with
  | none =>
    cases v with
    | none => exact .inl rfl
    | some v => cases h
  | some e =>
    cases v with
    | none => cases h
    | some v =>
      cases e with
      | real x =>
        cases v with
        | real y =>
          rcases Binary64.eq_cases h with rfl | hzero
          · exact .inl rfl
          · exact .inr hzero
        | _ => cases h
      | integer m =>
        cases v with
        | integer n => exact .inl (congrArg (fun n => some (Value.integer n)) (eq_of_beq h))
        | _ => cases h
      | string s =>
        cases v with
        | string t => exact .inl (congrArg (fun s => some (Value.string s)) (eq_of_beq h))
        | _ => cases h
      | boolean a =>
        cases v with
        | boolean b => exact .inl (congrArg (fun b => some (Value.boolean b)) (eq_of_beq h))
        | _ => cases h
      | array j =>
        cases v with
        | array k => exact .inl (congrArg (fun k => some (Value.array k)) (eq_of_beq h))
        | _ => cases h

/-- A literal stands for itself, and a zero for a zero. -/
theorem entryOf_cases (constants : List Cell) (v : Cell) :
    entryOf constants v = v ∨
      (entryOf constants v).isZeroReal = true ∧ v.isZeroReal = true := by
  unfold entryOf
  cases hfind : constants.find? fun e => e.identical v with
  | none => exact .inl rfl
  | some e =>
    have he := List.find?_some hfind
    exact Cell.identical_cases he

namespace Pool

/-- The pool with constants entered in order. -/
def addAll (p : Pool) (vs : List Cell) : Pool := vs.foldl (fun p v => (p.add v).1) p

/-- Constants are entered one after another. -/
theorem addAll_append (p : Pool) (vs ws : List Cell) :
    p.addAll (vs ++ ws) = (p.addAll vs).addAll ws := List.foldl_append

/-- The entries of a pool are a beginning of those after more are entered. -/
theorem addAll_growth (p : Pool) (vs : List Cell) :
    p.entries.toList <+: (p.addAll vs).entries.toList := by
  induction vs generalizing p with
  | nil => exact List.prefix_rfl
  | cons v vs ih => exact (p.add_growth v).1.trans (ih _)

/-- A pool that begins as every pool does. -/
def Seeded (p : Pool) : Prop := initial.entries.toList <+: p.entries.toList

/-- False is in every pool. -/
theorem Seeded.add_false {p : Pool} (h : p.Seeded) : (p.add (some (.boolean false))).1 = p := by
  have hfound : (p.find? (some (.boolean false))).isSome = true := by
    rw [find?_eq, List.findIdx?_isSome, List.any_eq_true]
    refine ⟨some (.boolean false), h.subset ?_, rfl⟩
    rw [initial_entries]
    exact List.mem_cons_self
  obtain ⟨k, hk⟩ := Option.isSome_iff_exists.mp hfound
  rw [add_of_find?_some hk]

/-- Entering false, however often, changes nothing. -/
theorem Seeded.addAll_false {p : Pool} (h : p.Seeded) (n : Nat) :
    p.addAll (List.replicate n (some (.boolean false))) = p := by
  induction n with
  | zero => rfl
  | succ n ih =>
    change (p.add (some (.boolean false))).1.addAll (List.replicate n (some (.boolean false))) = p
    rw [h.add_false, ih]

/-- What is found among the entries is what is found first in the order of entering. -/
theorem find?_addAll (p : Pool) (vs : List Cell) (v : Cell) :
    ((p.addAll vs).entries.toList.find? fun e => e.identical v) =
      (p.entries.toList ++ vs).find? fun e => e.identical v := by
  induction vs generalizing p with
  | nil => rw [List.append_nil]; rfl
  | cons u vs ih =>
    change (((p.add u).1.addAll vs).entries.toList.find? fun e => e.identical v) = _
    rw [ih, List.find?_append, List.find?_append, List.find?_cons]
    cases hfind : p.find? u with
    | none =>
      rw [add_entries hfind, List.find?_append, Option.or_assoc]
      congr 1
      cases hu : u.identical v <;> simp [hu]
    | some k =>
      rw [add_of_find?_some hfind]
      -- What is identical to `u` is found in front of it.
      cases hu : u.identical v with
      | false => rfl
      | true =>
        rw [find?_eq] at hfind
        obtain ⟨hk, hid, -⟩ := List.findIdx?_eq_some_iff_getElem.mp hfind
        have hsome : (p.entries.toList.find? fun e => e.identical v).isSome = true := by
          rw [List.find?_isSome]
          exact ⟨_, List.getElem_mem hk, Cell.identical_trans hid hu⟩
        obtain ⟨e, he⟩ := Option.isSome_iff_exists.mp hsome
        rw [he]
        rfl

end Pool

/-- In a pool to which literals were added in order, a literal stands for what is found first among
them. -/
theorem entryOf_addAll (vs : List Cell) (v : Cell) :
    entryOf (Pool.initial.addAll vs).entries.toList v = entryOf vs v := by
  by_cases hv : v.isZeroReal = true
  · -- No pool begins with a real number.
    have hseeds : ((Pool.seeds.map some).find? fun e : Cell => e.identical v) = none := by
      rw [List.find?_eq_none]
      intro e he hid
      have hreal : ∀ e ∈ Pool.seeds.map some, Cell.isZeroReal e = false := by decide
      rcases Cell.identical_cases hid with rfl | ⟨hzero, -⟩
      · rw [hreal e he] at hv
        cases hv
      · rw [hreal e he] at hzero
        cases hzero
    unfold entryOf
    rw [Pool.find?_addAll, Pool.initial_entries, List.find?_append, hseeds, Option.none_or]
  · have hself (constants : List Cell) : entryOf constants v = v :=
      (entryOf_cases constants v).resolve_right fun h => hv h.2
    rw [hself, hself]

end StackScript
