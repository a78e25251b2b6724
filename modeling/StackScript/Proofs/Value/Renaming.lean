import Mathlib.Data.List.Forall2
import StackScript.Proofs.Value.Data
import StackScript.Value.Operator

/-!
# Values up to the keys of arrays

A renaming says which keys of one store correspond to which of another, one to one. Values
correspond if they are equal or arrays with corresponding keys, and stores do if the grids of
corresponding keys do. Operators cannot tell corresponding values apart.
-/

namespace StackScript

variable {a b : Array Cell} {c d : Cell} {k : Nat} {op : Operator} {u v : Value}

/-- The values are equal, or arrays with corresponding keys. -/
def Value.Renamed (ρ : Nat → Nat → Prop) : Value → Value → Prop
  | .array k, w => ∃ l, w = .array l ∧ ρ k l
  | v, w => w = v

/-- The cells hold corresponding values, or both none. -/
def Cell.Renamed (ρ : Nat → Nat → Prop) : Cell → Cell → Prop
  | some v, d => ∃ w, d = some w ∧ v.Renamed ρ w
  | none, d => d = none

/-- The cells correspond one by one. -/
def Cell.AllRenamed (ρ : Nat → Nat → Prop) (cs ds : List Cell) : Prop :=
  List.Forall₂ (Cell.Renamed ρ) cs ds

/-- The grids have the same size and corresponding cells. -/
structure Grid.Renamed (ρ : Nat → Nat → Prop) (g h : Grid) : Prop where
  /-- They have the same number of rows. -/
  rows : h.rows = g.rows
  /-- They have the same number of columns. -/
  cols : h.cols = g.cols
  /-- Their cells correspond. -/
  cells : Cell.AllRenamed ρ g.cells.toList h.cells.toList

/-- The renaming is one to one between keys that were handed out, whose grids correspond. -/
structure Store.Renamed (ρ : Nat → Nat → Prop) (st st' : Store) : Prop where
  /-- A key has one new name. -/
  functional : ∀ {k l l'}, ρ k l → ρ k l' → l = l'
  /-- A new name has one key. -/
  injective : ∀ {k k' l}, ρ k l → ρ k' l → k = k'
  /-- The keys were handed out. -/
  known : ∀ {k l}, ρ k l → k < st.next ∧ l < st'.next
  /-- The grids correspond. -/
  grids : ∀ {k l}, ρ k l → (st.grid k).Renamed ρ (st'.grid l)

variable {ρ ρ' : Nat → Nat → Prop} {st st' : Store}

namespace Value.Renamed

variable {v v' w w' : Value}

/-- A value that is no array corresponds to itself. -/
theorem refl (h : v.kind ≠ .array) : v.Renamed ρ v := by
  cases v with
  | array k => exact absurd rfl h
  | _ => rfl

/-- Values that correspond are equal or arrays with corresponding keys. -/
theorem cases (h : v.Renamed ρ w) : w = v ∨ ∃ k l, v = .array k ∧ w = .array l ∧ ρ k l := by
  cases v with
  | array k =>
    obtain ⟨l, rfl, hl⟩ := h
    exact .inr ⟨k, l, rfl, rfl, hl⟩
  | _ => exact .inl h

/-- More keys may be paired. -/
theorem mono (h : v.Renamed ρ w) (hρ : ∀ k l, ρ k l → ρ' k l) : v.Renamed ρ' w := by
  cases v with
  | array k =>
    obtain ⟨l, rfl, hl⟩ := h
    exact ⟨l, rfl, hρ k l hl⟩
  | _ => exact h

/-- Renamed values are of one kind. -/
theorem kind (h : v.Renamed ρ w) : w.kind = v.kind := by
  rcases h.cases with rfl | ⟨k, l, rfl, rfl, -⟩ <;> rfl

/-- Renamed values are true alike. -/
theorem truth (h : v.Renamed ρ w) : w.truth = v.truth := by
  rcases h.cases with rfl | ⟨k, l, rfl, rfl, -⟩ <;> rfl

/-- Renamed values have one integer. -/
theorem toInteger (h : v.Renamed ρ w) : w.toInteger = v.toInteger := by
  rcases h.cases with rfl | ⟨k, l, rfl, rfl, -⟩ <;> rfl

/-- Renamed values have one real number. -/
theorem toReal (h : v.Renamed ρ w) : w.toReal = v.toReal := by
  rcases h.cases with rfl | ⟨k, l, rfl, rfl, -⟩ <;> rfl

end Value.Renamed

namespace Cell.Renamed

/-- More keys may be paired. -/
theorem mono (h : c.Renamed ρ d) (hρ : ∀ k l, ρ k l → ρ' k l) : c.Renamed ρ' d := by
  cases c with
  | none => exact h
  | some v =>
    obtain ⟨w, rfl, hw⟩ := h
    exact ⟨w, rfl, hw.mono hρ⟩

/-- A cell with a value that is no array corresponds to itself. -/
theorem scalar (h : v.kind ≠ .array) : Cell.Renamed ρ (some v) (some v) :=
  ⟨v, rfl, .refl h⟩

end Cell.Renamed

namespace Cell.AllRenamed

variable {cs ds : List Cell}

/-- More keys may be paired. -/
theorem mono (h : Cell.AllRenamed ρ cs ds) (hρ : ∀ k l, ρ k l → ρ' k l) :
    Cell.AllRenamed ρ' cs ds := h.imp fun _ _ hc => hc.mono hρ

/-- Renamed cells are paired place by place. -/
theorem getD (h : Cell.AllRenamed ρ cs ds) (i : Nat) :
    Cell.Renamed ρ (cs[i]?.getD none) (ds[i]?.getD none) := by
  induction h generalizing i with
  | nil => exact rfl
  | cons hc _ ih =>
    cases i with
    | zero => exact hc
    | succ i => exact ih i

/-- Cells of arrays at a place correspond. -/
theorem array_getD (h : Cell.AllRenamed ρ a.toList b.toList) (i : Nat) :
    Cell.Renamed ρ (a.getD i none) (b.getD i none) := by
  rw [Array.getD_eq_getD_getElem?, Array.getD_eq_getD_getElem?, ← Array.getElem?_toList,
    ← Array.getElem?_toList]
  exact getD h i

/-- Corresponding cells may be put at a place. -/
theorem set (h : Cell.AllRenamed ρ cs ds) (hc : c.Renamed ρ d) (i : Nat) :
    Cell.AllRenamed ρ (cs.set i c) (ds.set i d) := by
  induction h generalizing i with
  | nil => exact .nil
  | cons hfirst hrest ih =>
    cases i with
    | zero => exact .cons hc hrest
    | succ i => exact .cons hfirst (ih i)

/-- The same number of corresponding cells. -/
theorem replicate (hc : c.Renamed ρ d) (n : Nat) :
    Cell.AllRenamed ρ (List.replicate n c) (List.replicate n d) := by
  induction n with
  | zero => exact .nil
  | succ n ih => exact .cons hc ih

/-- There are as many renamed cells. -/
theorem size_eq (h : Cell.AllRenamed ρ a.toList b.toList) :
    b.size = a.size := (List.Forall₂.length_eq h).symm

end Cell.AllRenamed

namespace Grid.Renamed

variable {g h : Grid}

/-- More keys may be paired. -/
theorem mono (hg : g.Renamed ρ h) (hρ : ∀ k l, ρ k l → ρ' k l) : g.Renamed ρ' h :=
  ⟨hg.rows, hg.cols, hg.cells.mono hρ⟩

/-- Renamed grids have the same places. -/
theorem index? (hg : g.Renamed ρ h) (row col : Int) : h.index? row col = g.index? row col := by
  unfold Grid.index?
  rw [hg.rows, hg.cols]

/-- Renamed grids tell one size. -/
theorem sizeText (hg : g.Renamed ρ h) : h.sizeText = g.sizeText := by
  unfold Grid.sizeText
  rw [hg.rows, hg.cols]

/-- Corresponding cells may be put at a place. -/
theorem put (hg : g.Renamed ρ h) (i : Nat) (hc : c.Renamed ρ d) :
    (g.put i c).Renamed ρ (h.put i d) := by
  refine ⟨hg.rows, hg.cols, ?_⟩
  unfold Grid.put
  rw [Array.toList_setIfInBounds, Array.toList_setIfInBounds]
  exact hg.cells.set hc i

/-- Grids of one size filled with corresponding cells. -/
theorem filled (rows cols : Nat) (hc : c.Renamed ρ d) :
    (Grid.filled rows cols c).Renamed ρ (Grid.filled rows cols d) := by
  refine ⟨rfl, rfl, ?_⟩
  unfold Grid.filled
  rw [Array.toList_replicate, Array.toList_replicate]
  exact .replicate hc _

end Grid.Renamed

/-! ## Operators -/

namespace Store.Renamed

variable {v v' w w' : Value}

/-- Corresponding values have the same text. -/
theorem text (h : Store.Renamed ρ st st') (hv : v.Renamed ρ v') : v'.text st' = v.text st := by
  cases v with
  | array k =>
    obtain ⟨l, rfl, hl⟩ := hv
    exact (h.grids hl).sizeText
  | _ =>
    obtain rfl := hv
    rfl

/-- Corresponding values are equal or not alike: a renaming is one to one. -/
theorem equal (h : Store.Renamed ρ st st') (hv : v.Renamed ρ v') (hw : w.Renamed ρ w') :
    v'.equal st' w' = v.equal st w := by
  cases v with
  | array k =>
    obtain ⟨l, rfl, hl⟩ := hv
    unfold Value.equal
    rw [Bool.eq_iff_iff, beq_iff_eq, beq_iff_eq]
    -- Equal keys are renamed to one key, and as the renaming is one to one, no others are.
    constructor
    · rintro rfl
      cases w with
      | array k' =>
        obtain ⟨l', hl', hkl'⟩ := hw
        cases hl'
        rw [h.injective hl hkl']
      | _ => cases hw
    · rintro rfl
      obtain ⟨l', rfl, hl'⟩ := hw
      rw [h.functional hl hl']
  | string s =>
    obtain rfl := hv
    unfold Value.equal
    rw [h.text hw]
  | boolean b =>
    obtain rfl := hv
    unfold Value.equal
    rw [hw.truth]
  | _ =>
    obtain rfl := hv
    unfold Value.equal
    rw [hw.toReal]

/-- An operator gives the same for corresponding operands. -/
theorem apply (h : Store.Renamed ρ st st') (hv : v.Renamed ρ v') (hw : w.Renamed ρ w')
    (op : Operator) : op.apply st' v' w' = op.apply st v w := by
  have htext := h.text hv
  have htext' := h.text hw
  cases op <;>
    simp only [Operator.apply, Value.add, Value.sub, Value.mul, Value.div, Value.mod,
      Value.greater, Value.less, Value.isString, Value.isReal, Value.isInteger, hv.kind, hw.kind,
      hv.toReal, hw.toReal, hv.toInteger, hw.toInteger, hv.truth, hw.truth, htext, htext',
      h.equal hv hw]
  all_goals rfl

/-- An operator gives the same for corresponding cells. -/
theorem applyCells (h : Store.Renamed ρ st st') {c' d' : Cell} (hc : c.Renamed ρ c')
    (hd : d.Renamed ρ d') (op : Operator) : op.applyCells st' c' d' = op.applyCells st c d := by
  cases c with
  | none =>
    obtain rfl := hc
    cases d with
    | none =>
      obtain rfl := hd
      rfl
    | some w =>
      obtain ⟨w', rfl, hw⟩ := hd
      cases op <;> simp only [Operator.applyCells, Operator.applyMissing, hw.toInteger]
  | some v =>
    obtain ⟨v', rfl, hv⟩ := hc
    cases d with
    | none =>
      obtain rfl := hd
      rcases hv.cases with rfl | ⟨k, l, rfl, rfl, -⟩
      · rfl
      · cases op <;> rfl
    | some w =>
      obtain ⟨w', rfl, hw⟩ := hd
      exact h.apply hv hw op

end Store.Renamed

/-- An operator gives no array. -/
theorem Operator.apply_kind {w : Value} (h : op.apply st v w = .ok u) : u.kind ≠ .array := by
  cases op <;> simp only [apply, Value.add, Value.sub, Value.mul, Value.div, Value.mod] at h
  case undefined => cases h
  case div =>
    split at h
    · split at h
      · cases h
      · cases h
        nofun
    · cases h
      nofun
  case mod =>
    split at h
    · cases h
    · cases h
      nofun
  case add | sub =>
    obtain rfl := Except.ok.inj h
    split
    · nofun
    · split <;> nofun
  case mul =>
    obtain rfl := Except.ok.inj h
    split <;> nofun
  all_goals
    obtain rfl := Except.ok.inj h
    nofun

/-- An operator on cells gives no array. -/
theorem Operator.applyCells_kind (h : op.applyCells st c d = .ok u) : u.kind ≠ .array := by
  unfold applyCells at h
  split at h
  · exact apply_kind h
  · unfold applyMissing at h
    split at h
    · cases h
    · split at h <;> cases h
    · cases h
      nofun
    · cases h
      nofun
    · split at h
      · cases h
      · cases h
        nofun
    · split at h
      · cases h
        nofun
      · cases h
    · cases h

/-! ## Changes of stores -/

namespace Store

/-- The grid that was added last. -/
theorem grid_add_next (st : Store) (g : Grid) : (st.add g).grid st.next = g :=
  Store.Extends.grid_next (.refl _)

/-- Adding a grid keeps the others. -/
theorem grid_add_of_lt (h : k < st.next) (g : Grid) : (st.add g).grid k = st.grid k := by
  unfold grid add
  rw [Array.getElem?_push_lt h, Array.getElem?_eq_getElem h]

/-- An array takes the next key. -/
theorem next_add (st : Store) (g : Grid) : (st.add g).next = st.next + 1 := Array.size_push g

end Store

/-- A renaming with one more pair of keys. -/
def addPair (ρ : Nat → Nat → Prop) (k l : Nat) : Nat → Nat → Prop :=
  fun a b => ρ a b ∨ a = k ∧ b = l

namespace Store.Renamed

/-- Stores stay renamed when renamed arrays are added. -/
theorem add (h : Store.Renamed ρ st st') {g g' : Grid}
    (hg : g.Renamed (addPair ρ st.next st'.next) g') :
    Store.Renamed (addPair ρ st.next st'.next) (st.add g) (st'.add g') where
  -- The two new keys are in none of the pairs so far, whose keys are all below.
  functional := by
    rintro k l l' (hl | ⟨rfl, rfl⟩) (hl' | ⟨hk, rfl⟩)
    · exact h.functional hl hl'
    · exact absurd (h.known hl).1 (by omega)
    · exact absurd (h.known hl').1 (by omega)
    · rfl
  injective := by
    rintro k k' l (hl | ⟨rfl, rfl⟩) (hl' | ⟨rfl, hl'⟩)
    · exact h.injective hl hl'
    · exact absurd (h.known hl).2 (by omega)
    · exact absurd (h.known hl').2 (by omega)
    · rfl
  known := by
    rintro k l (hl | ⟨rfl, rfl⟩)
    · obtain ⟨hk, hl⟩ := h.known hl
      rw [next_add, next_add]
      exact ⟨Nat.lt_succ_of_lt hk, Nat.lt_succ_of_lt hl⟩
    · rw [next_add, next_add]
      exact ⟨Nat.lt_succ_self _, Nat.lt_succ_self _⟩
  grids := by
    rintro k l (hl | ⟨rfl, rfl⟩)
    · obtain ⟨hk, hlt⟩ := h.known hl
      rw [grid_add_of_lt hk, grid_add_of_lt hlt]
      exact (h.grids hl).mono fun _ _ => .inl
    · rw [grid_add_next, grid_add_next]
      exact hg

/-- Corresponding cells may be put into the grids of corresponding keys. -/
theorem modify (h : Store.Renamed ρ st st') {l : Nat} (hl : ρ k l) (i : Nat) (hc : c.Renamed ρ d) :
    Store.Renamed ρ ⟨st.grids.modify k fun g => g.put i c⟩
      ⟨st'.grids.modify l fun g => g.put i d⟩ where
  functional := h.functional
  injective := h.injective
  known := by
    intro a b hb
    unfold next
    rw [Array.size_modify, Array.size_modify]
    exact h.known hb
  grids := by
    intro a b hb
    have hgrid {s : Store} {x y : Nat} (hy : y < s.next) (e : Cell) :
        Store.grid ⟨s.grids.modify x fun g => g.put i e⟩ y =
          if x = y then (s.grid y).put i e else s.grid y := by
      simp only [grid_modify, hy, and_true]
    obtain ⟨ha, hblt⟩ := h.known hb
    rw [hgrid ha, hgrid hblt]
    -- One key is the one that is changed if and only if the other is.
    by_cases hka : k = a
    · subst hka
      rw [if_pos rfl, if_pos (h.functional hl hb)]
      exact (h.grids hb).put i hc
    · have hlb : l ≠ b := by
        rintro rfl
        exact hka (h.injective hl hb)
      rw [if_neg hka, if_neg hlb]
      exact h.grids hb

end Store.Renamed

end StackScript
