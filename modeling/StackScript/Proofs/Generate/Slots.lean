import StackScript.Proofs.Generate.Emission
import StackScript.Proofs.Tree.Conditions

/-!
# The slots that generation gives out

Generating a statement gives out slots behind those that there are, one for each declaration, and
appends a store into each of them. The names of new slots are declared in the statement or hidden.
-/

namespace StackScript

open Instruction

/-- The number of instructions that store into a slot. -/
def stores (code : List Instruction) : Nat := code.countP fun i => i.op == .store

/-- The stores of two pieces of code. -/
theorem stores_append (a b : List Instruction) : stores (a ++ b) = stores a + stores b :=
  List.countP_append

/-- Hidden names are not plain. -/
theorem isPlainName_hiddenName (n : Nat) : isPlainName (hiddenName n) = false := rfl

/-- From one progress to another `count` slots are given out, for the given names and for hidden
ones, and the code stores into each. -/
def Progress.Declares (σ τ : Progress) (count : Nat) (names : List Bytes)
    (code : List Instruction) : Prop :=
  ∃ new, τ.slots = σ.slots ++ new ∧ new.length = count ∧ count ≤ stores code ∧
    ∀ x ∈ new, x ∈ names ∨ isPlainName x = false

namespace Progress.Declares

variable {σ ρ τ : Progress} {count count' : Nat} {names names' : List Bytes}
  {code code' : List Instruction}

/-- Nothing is declared by no progress. -/
theorem none (σ : Progress) (code : List Instruction) : σ.Declares σ 0 [] code :=
  ⟨[], (List.append_nil _).symm, rfl, Nat.zero_le _, nofun⟩

/-- Declarations compose. -/
theorem trans (h : σ.Declares ρ count names code) (h' : ρ.Declares τ count' names' code') :
    σ.Declares τ (count + count') (names ++ names') (code ++ code') := by
  obtain ⟨new, hslots, hlength, hstores, hnames⟩ := h
  obtain ⟨new', hslots', hlength', hstores', hnames'⟩ := h'
  refine ⟨new ++ new', by rw [hslots', hslots, List.append_assoc], ?_, ?_, ?_⟩
  · rw [List.length_append, hlength, hlength']
  · rw [stores_append]
    omega
  · intro x hx
    rcases List.mem_append.mp hx with hx | hx
    · exact (hnames x hx).imp_left (List.mem_append_left _)
    · exact (hnames' x hx).imp_left (List.mem_append_right _)

/-- More code may stand around that which declares. -/
theorem within (h : σ.Declares τ count names code) (hcode : stores code ≤ stores code') :
    σ.Declares τ count names code' := by
  obtain ⟨new, hslots, hlength, hstores, hnames⟩ := h
  exact ⟨new, hslots, hlength, Nat.le_trans hstores hcode, hnames⟩

/-- The labels do not matter. -/
theorem of_slots {σ' : Progress} (h : σ'.Declares τ count names code) (hσ : σ'.slots = σ.slots) :
    σ.Declares τ count names code := by
  unfold Progress.Declares at h ⊢
  rwa [hσ] at h

/-- What there was stays in front. -/
theorem slots_initial (h : σ.Declares τ count names code) : σ.slots <+: τ.slots := by
  obtain ⟨new, hslots, -⟩ := h
  exact ⟨new, hslots.symm⟩

/-- The number of slots afterwards. -/
theorem slots_length (h : σ.Declares τ count names code) :
    τ.slots.length = σ.slots.length + count := by
  obtain ⟨new, hslots, hlength, -⟩ := h
  rw [hslots, List.length_append, hlength]

end Progress.Declares

/-- The slot that a counting loop gives out for its index. -/
theorem Progress.enterCount_declares (σ : Progress) (index : Bytes) (k : Nat) :
    σ.Declares (σ.enterCount index) 1 (if index.isEmpty then [] else [index]) [on .store k] := by
  refine ⟨[σ.indexName index], rfl, rfl, Nat.le_refl _, fun x hx => ?_⟩
  obtain rfl := List.mem_singleton.mp hx
  unfold Progress.indexName
  split
  · exact .inr rfl
  · exact .inl List.mem_cons_self

mutual

/-- The slots that a statement gives out. -/
theorem Stmt.Emits.declares {K : List Cell} {stop : Option Bytes} {s : Stmt Cell} {σ τ : Progress}
    {code : List Instruction} (h : s.Emits K stop σ code τ) :
    σ.Declares τ s.slotCount s.declared code := by
  match s with
  | .absent =>
    obtain ⟨rfl, rfl⟩ := h
    exact .none ..
  | .block _ body => exact Stmt.EmitsAll.declares h
  | .declare _ x value =>
    obtain ⟨c, hc, rfl, rfl⟩ := h
    refine ⟨[x], rfl, rfl, ?_, fun y hy => .inl hy⟩
    rw [stores_append]
    exact Nat.le_add_left _ _
  | .assign _ x value =>
    obtain ⟨c, k, hc, -, rfl, rfl⟩ := h
    exact .none ..
  | .assignElement _ x row col value =>
    obtain ⟨r, c, v, k, hr, hc, hv, -, rfl, rfl⟩ := h
    exact .none ..
  | .branch _ cond yes no =>
    rw [Stmt.Emits] at h
    split at h
    · rename_i habsent
      obtain ⟨c, y, hc, hy, rfl⟩ := h
      obtain rfl := Stmt.eq_absent habsent
      rw [Stmt.slotCount, Stmt.declared, Stmt.slotCount, Stmt.declared, List.append_nil]
      exact (hy.declares.within (by simp only [stores_append]; omega)).of_slots rfl
    · obtain ⟨c, y, n, ρ, hc, hy, hn, rfl⟩ := h
      exact ((hy.declares.trans hn.declares).within (by simp only [stores_append]; omega)).of_slots
        rfl
  | .whileLoop _ cond body =>
    obtain ⟨c, b, hc, hb, rfl⟩ := h
    exact (hb.declares.within (by simp only [stores_append]; omega)).of_slots rfl
  | .countLoop _ index count body =>
    obtain ⟨c, b, k, k0, k1, -, -, hc, hb, -, rfl⟩ := h
    refine ((σ.enterCount_declares index k).trans hb.declares).within ?_
    -- Only the store in front of the loop is counted for the index, not the one that increments it.
    rw [show ∀ l : Bytes, [on .constant k0, on .store k, marker l, on .load k] =
      [on .constant k0] ++ [on .store k] ++ [marker l, on .load k] from fun _ => rfl]
    simp only [stores_append]
    omega
  | .leave _ =>
    obtain ⟨label, -, rfl, rfl⟩ := h
    exact .none ..
  | .giveBack _ value =>
    rw [Stmt.Emits] at h
    split at h
    · obtain ⟨hr, rfl⟩ := h
      exact .none ..
    · obtain ⟨c, hc, rfl, rfl⟩ := h
      exact .none ..
  | .define _ name params body =>
    -- The slots of another function are its own.
    obtain ⟨b, r, ρ, hb, hr, rfl, rfl⟩ := h
    exact .none ..
  | .perform _ name args =>
    obtain ⟨c, hc, rfl, rfl⟩ := h
    exact .none ..

/-- The slots that statements in sequence give out. -/
theorem Stmt.EmitsAll.declares {K : List Cell} {stop : Option Bytes} {ss : List (Stmt Cell)}
    {σ τ : Progress} {code : List Instruction} (h : Stmt.EmitsAll K stop ss σ code τ) :
    σ.Declares τ (Stmt.allSlotCount ss) (Stmt.allDeclared ss) code := by
  match ss with
  | [] =>
    obtain ⟨rfl, rfl⟩ := h
    exact .none ..
  | s :: ss =>
    obtain ⟨c, rest, ρ, hs, hr, rfl⟩ := h
    exact hs.declares.trans (Stmt.EmitsAll.declares hr)

end

end StackScript
