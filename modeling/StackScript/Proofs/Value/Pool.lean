import StackScript.Proofs.Number.Equality
import StackScript.Value.Pool

/-!
# Constants of a pool

A pool only grows at its end, and a literal that is added keeps the entry that it was given then.
Which entry that is can be read off the finished pool: `entryOf` finds the first identical one. A
NaN is identical to nothing and is entered anew each time, so it stands for itself.
-/

namespace StackScript

variable {a b v : Cell} {constants entries : List Cell} {i : Nat} {p : Pool}

/-! ## Identical constants -/

namespace Cell

/-- Constants are identical if they are equal real numbers, or the same otherwise. -/
theorem identical_iff : a.identical b = true ↔
    (∃ x y, a = some (.real x) ∧ b = some (.real y) ∧ x.eq y = true) ∨
      a = b ∧ ∀ x, a ≠ some (.real x) := by
  cases a with
  | none => cases b <;> simp [identical]
  | some v =>
    cases b with
    | none => simp [identical]
    | some w => cases v <;> cases w <;> simp [identical, Value.identical]

/-- Constants are one key of an index if and only if they are identical. -/
theorem sameKey_eq (a b : Cell) : a.sameKey b = a.identical b := by
  rw [Bool.eq_iff_iff, identical_iff]
  unfold sameKey
  split
  · simp
  · rename_i hreals
    constructor
    · intro h
      obtain rfl := eq_of_beq h
      exact .inr ⟨rfl, fun x hx => hreals x x hx hx⟩
    · rintro (⟨x, y, ha, hb, -⟩ | ⟨rfl, -⟩)
      · exact (hreals x y ha hb).elim
      · exact beq_self_eq_true a

/-- Being identical is symmetric. -/
theorem identical_symm (h : a.identical b = true) : b.identical a = true := by
  rcases identical_iff.mp h with ⟨x, y, rfl, rfl, hxy⟩ | ⟨rfl, -⟩
  · exact Binary64.eq_symm hxy
  · exact h

/-- Being identical is transitive. -/
theorem identical_trans {c : Cell} (h : a.identical b = true) (h' : b.identical c = true) :
    a.identical c = true := by
  rcases identical_iff.mp h with ⟨x, y, rfl, rfl, hxy⟩ | ⟨rfl, -⟩
  · rcases identical_iff.mp h' with ⟨_, z, hy, rfl, hyz⟩ | ⟨rfl, -⟩
    · cases hy
      exact Binary64.eq_trans hxy hyz
    · exact h
  · exact h'

end Cell

/-! ## The constants that literals stand for -/

/-- The constant that stands for a literal: the first identical one, and the literal itself if it is
identical to nothing, as a NaN is. -/
def entryOf (constants : List Cell) (v : Cell) : Cell :=
  (constants.find? fun e => e.identical v).getD v

/-- The constant at an index stands for a literal. -/
def StandsFor (constants : List Cell) (k : Nat) (v : Cell) : Prop :=
  constants[k]? = some (entryOf constants v)

/-- A literal that is identical only to itself stands for itself. -/
theorem entryOf_eq_self (h : ∀ e : Cell, e.identical v = true → e = v) (constants : List Cell) :
    entryOf constants v = v := by
  unfold entryOf
  cases hfind : constants.find? fun e => e.identical v with
  | none => rfl
  | some e =>
    have he := List.find?_some hfind
    exact h e he

/-- The entry of an integer is itself. -/
theorem entryOf_integer (constants : List Cell) (n : Int64) :
    entryOf constants (some (.integer n)) = some (.integer n) := by
  refine entryOf_eq_self (fun e he => ?_) constants
  match e with
  | some (.integer m) => exact congrArg (fun n => some (Value.integer n)) (eq_of_beq he)

/-- The entry of a boolean is itself. -/
theorem entryOf_boolean (constants : List Cell) (b : Bool) :
    entryOf constants (some (.boolean b)) = some (.boolean b) := by
  refine entryOf_eq_self (fun e he => ?_) constants
  match e with
  | some (.boolean c) => exact congrArg (fun b => some (Value.boolean b)) (eq_of_beq he)

/-- An entry found in a beginning of the constants is the one found in all of them. -/
theorem standsFor_of_findIdx? (h : entries.findIdx? (fun e => e.identical v) = some i)
    (hpre : entries <+: constants) : StandsFor constants i v := by
  obtain ⟨rest, rfl⟩ := hpre
  obtain ⟨hi, hid, hfirst⟩ := List.findIdx?_eq_some_iff_getElem.mp h
  have hfind : entries.find? (fun e => e.identical v) = some entries[i] := by
    refine List.find?_eq_some_iff_append.mpr ⟨hid, entries.take i, entries.drop (i + 1), ?_, ?_⟩
    · rw [← List.drop_eq_getElem_cons hi, List.take_append_drop]
    · intro e he
      obtain ⟨j, hj, rfl⟩ := List.getElem_of_mem he
      rw [List.length_take] at hj
      rw [List.getElem_take]
      simpa using hfirst j (by omega)
  unfold StandsFor entryOf
  rw [List.find?_append, hfind, List.getElem?_append_left hi, List.getElem?_eq_getElem hi]
  rfl

/-- A literal behind constants of which none is identical to it stands for itself. -/
theorem standsFor_of_fresh (h : ∀ e ∈ entries, e.identical v = false)
    (hpre : entries ++ [v] <+: constants) : StandsFor constants entries.length v := by
  obtain ⟨rest, rfl⟩ := hpre
  have hnone : entries.find? (fun e => e.identical v) = none := by
    rw [List.find?_eq_none]
    intro e he
    simp [h e he]
  have hentry : entryOf (entries ++ [v] ++ rest) v = v := by
    unfold entryOf
    rw [List.append_assoc, List.find?_append, hnone, Option.none_or]
    cases hv : v.identical v with
    | true => simp [hv]
    | false =>
      have hrest : ([v] ++ rest).find? (fun e => e.identical v) = none := by
        rw [List.find?_eq_none]
        intro e _ he
        rw [Cell.identical_trans (Cell.identical_symm he) he] at hv
        cases hv
      rw [hrest, Option.getD_none]
  unfold StandsFor
  rw [hentry, List.append_assoc, List.getElem?_append_right (Nat.le_refl _), Nat.sub_self]
  rfl

namespace Pool

/-! ## Entries and their index -/

/-- A constant is looked up in what was entered last, and then in what was there before. -/
theorem lookup_cons (u v : Cell) (k : Nat) (index : List (Cell × Nat)) :
    lookup ((u, k) :: index) v = if u.identical v then some k else lookup index v := by
  unfold lookup
  rw [List.find?_cons, Cell.sameKey_eq]
  cases u.identical v <;> rfl

/-- The index of a pool has what looking through the entries finds. It gives the place where the key
was entered last and the search gives the first one; the two are the same because a constant that is
identical to an entry is not entered. -/
theorem Built.lookup_eq {entries : Array Cell} {index : List (Cell × Nat)}
    (h : Built entries index) (v : Cell) :
    lookup index v = entries.toList.findIdx? fun e => e.identical v := by
  induction h generalizing v with
  | empty => rfl
  | @enter entries index u _ hu ih =>
    rw [ih u, List.findIdx?_eq_none_iff] at hu
    rw [lookup_cons, ih v, Array.toList_push, List.findIdx?_append, List.findIdx?_singleton]
    cases huv : u.identical v with
    | false => simp
    | true =>
      have hnone : entries.toList.findIdx? (fun e => e.identical v) = none := by
        rw [List.findIdx?_eq_none_iff]
        intro e he
        rw [Bool.eq_false_iff]
        intro hev
        have heu := Cell.identical_trans hev (Cell.identical_symm huv)
        rw [hu e he] at heu
        cases heu
      simp [hnone]

/-- The index of an entry, on the list of the entries. -/
theorem find?_eq (p : Pool) (v : Cell) :
    p.find? v = p.entries.toList.findIdx? fun e => e.identical v :=
  p.built.lookup_eq v

/-- A constant that is there is not entered again. -/
theorem add_of_find?_some (h : p.find? v = some i) : p.add v = (p, i) := by
  unfold add
  split
  · rename_i j hj
    rw [h] at hj
    cases hj
    rfl
  · rename_i hnone
    rw [h] at hnone
    cases hnone

/-- A constant that is not there is entered at the end. -/
theorem add_of_find?_none (h : p.find? v = none) : p.add v = (p.enter v h, p.entries.size) := by
  unfold add
  split
  · rename_i j hj
    rw [h] at hj
    cases hj
  · rfl

/-- The entries behind a constant that is not there. -/
theorem add_entries (h : p.find? v = none) :
    (p.add v).1.entries.toList = p.entries.toList ++ [v] := by
  rw [add_of_find?_none h]
  exact Array.toList_push

/-- A pool grows by one entry at most, at its end. -/
theorem add_growth (p : Pool) (v : Cell) :
    p.entries.toList <+: (p.add v).1.entries.toList ∧
      (p.add v).1.entries.size ≤ p.entries.size + 1 := by
  cases h : p.find? v with
  | some i =>
    rw [add_of_find?_some h]
    exact ⟨List.prefix_rfl, Nat.le_succ _⟩
  | none =>
    rw [← Array.length_toList, add_entries h, List.length_append, Array.length_toList]
    exact ⟨List.prefix_append _ _, Nat.le_refl _⟩

/-- The index that adding a literal gives is the one of the constant that stands for it, in every
pool that the new one is a beginning of. -/
theorem standsFor_add (p : Pool) (v : Cell) (hpre : (p.add v).1.entries.toList <+: constants) :
    StandsFor constants (p.add v).2 v := by
  cases h : p.find? v with
  | some i =>
    rw [add_of_find?_some h] at hpre ⊢
    rw [find?_eq] at h
    exact standsFor_of_findIdx? h hpre
  | none =>
    rw [add_entries h] at hpre
    rw [add_of_find?_none h, ← Array.length_toList]
    rw [find?_eq] at h
    exact standsFor_of_fresh (List.findIdx?_eq_none_iff.mp h) hpre

/-- Adding constants one after another on the list of the entries. -/
theorem initial_entries : initial.entries.toList = seeds.map some := by
  have hadd : ∀ (vs : List Value) (p : Pool),
      (∀ v ∈ vs, p.entries.toList.findIdx? (fun e => e.identical (some v)) = none) →
      vs.Pairwise (fun v w => Cell.identical (some v) (some w) = false) →
      (vs.foldl (fun p v => (p.add (some v)).1) p).entries.toList =
        p.entries.toList ++ vs.map some := by
    intro vs
    induction vs with
    | nil => intro p _ _; simp
    | cons v vs ih =>
      intro p hp hvs
      rw [List.pairwise_cons] at hvs
      have hv : (p.add (some v)).1.entries.toList = p.entries.toList ++ [some v] := by
        refine add_entries ?_
        rw [find?_eq, hp v List.mem_cons_self]
      rw [List.foldl_cons, ih _ ?_ hvs.2, hv]
      · simp
      · intro w hw
        rw [hv, List.findIdx?_append, hp w (List.mem_cons_of_mem _ hw)]
        simp [List.findIdx?_cons, hvs.1 w hw]
  have h := hadd seeds empty (by simp [empty]) (by decide)
  rw [initial, h]
  rfl

end Pool

end StackScript
