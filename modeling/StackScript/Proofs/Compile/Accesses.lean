import StackScript.Proofs.Generate.Accesses
import StackScript.Proofs.Layout.Compiled
import StackScript.Proofs.Link.Resolution
import StackScript.Proofs.Value.Data

/-!
# The slots of a compiled program

Linking moves the instructions on slots and changes none of them. So those of a compiled program
are, in order, the ones for the accesses of its tree, each with the slot of its access
(`compile_slot`).
-/

namespace StackScript

/-- The places of a program that hold instructions on slots, in order. -/
def Program.slotPlaces (p : Program) : List Nat :=
  (List.range p.code.size).filter fun q => p.code[q]?.any fun i => i.op.usesSlot

/-! ## Linking -/

section

variable {symbols : Symbols} {code out : List Instruction}

/-- A call has no instructions on slots. -/
theorem slotCode_linkCall {i : Instruction} (h : linkCall symbols i = .ok out)
    (hcall : i.op = .call) : slotCode out = [] := by
  have hpad (n : Nat) : slotCode (List.replicate n loadFalse) = [] := by
    simp [slotCode, loadFalse, Opcode.usesSlot]
  unfold linkCall at h
  split at h
  · cases h
  · split at h
    · cases h
    · split at h
      · cases h
      · split at h
        · cases h
          rfl
        · split at h
          · cases h
          · cases h
            rw [slotCode_append, hpad]
            simp [slotCode, hcall, Opcode.usesSlot]

/-- Linking calls keeps the instructions on slots. -/
theorem slotCode_linkCalls (h : linkCalls symbols code = .ok out) :
    slotCode out = slotCode code := by
  induction code generalizing out with
  | nil =>
    cases h
    rfl
  | cons i rest ih =>
    obtain ⟨there, hthere, rfl, hcall⟩ := linkCalls_cons h
    have hhead : slotCode (linkedHead symbols (i :: rest)) = slotCode [i] := by
      by_cases hop : i.op = .call
      · rw [slotCode_linkCall (hcall hop) hop, slotCode_other (by rw [hop]; rfl)]
        rfl
      · rw [linkedHead, if_neg hop]
        split
        · -- A return that is dropped is not on a slot either.
          rename_i hdropped
          have hret : i.op = .ret := by simp_all
          rw [slotCode_other (by rw [hret]; rfl)]
        · rfl
    rw [slotCode_append, hhead, ih hthere, ← slotCode_append]
    rfl

/-- Resolving a jump does not concern instructions on slots. -/
theorem slotCode_resolveJump {aliases : List (Bytes × Bytes)} {places : List (Bytes × Nat)}
    {i o : Instruction} (h : resolveJump aliases places i = .ok o) :
    slotCode [o] = slotCode [i] := by
  obtain ⟨hop, -, -⟩ := resolveJump_eq_ok h
  obtain ⟨-, -, hsame⟩ := resolveJump_keeps h
  cases hjump : i.op.isJump with
  | false => rw [hsame hjump]
  | true =>
    have hslot : i.op.usesSlot = false := by
      cases hi : i.op <;> rw [hi] at hjump <;> first | rfl | cases hjump
    rw [slotCode_other hslot, slotCode_other (by rw [hop, hslot])]

/-- Linking labels keeps the instructions on slots. -/
theorem slotCode_linkLabels (h : linkLabels code = .ok out) : slotCode out = slotCode code := by
  obtain ⟨places, -, hmap⟩ := linkLabels_eq_ok h
  have hmerge : slotCode (mergeMarkers [] code).1 = slotCode code :=
    filter_mergeMarkers rfl (fun _ _ => rfl) code
  rw [← hmerge]
  generalize (mergeMarkers [] code).1 = merged at hmap
  clear h hmerge
  induction merged generalizing out with
  | nil =>
    cases hmap
    rfl
  | cons i rest ih =>
    obtain ⟨o, os, ho, hos, rfl⟩ := mapM_cons_eq_ok.mp hmap
    have hfirst := slotCode_resolveJump ho
    calc slotCode (o :: os) = slotCode [o] ++ slotCode os := slotCode_append [o] os
      _ = slotCode [i] ++ slotCode rest := by rw [hfirst, ih hos]
      _ = slotCode (i :: rest) := (slotCode_append [i] rest).symm

end

/-! ## The accesses of a compiled program -/

/-- The instructions on slots of a compiled program are those for the accesses of its tree. -/
theorem compile_fits {t : Tree Cell} {imports : List Import} {p : Program}
    (h : compile t imports = .ok p) :
    Fits t.accesses [] t.accesses (slotCode p.code.toList) := by
  obtain ⟨c, expanded, out, hgenerate, hcalls, hlabels, rfl⟩ := compile_eq_ok h
  obtain ⟨_, -, hemits⟩ := Tree.generate_hosted hgenerate
  have hfits := hemits.fits
  rw [← slotCode_linkCalls hcalls, ← slotCode_linkLabels hlabels] at hfits
  exact hfits

/-- The places of the elements with a property lead to those elements, in order. -/
theorem map_filter_range (xs : List α) (kind : α → Bool) :
    ((List.range xs.length).filter fun q => xs[q]?.any kind).map (fun q => xs[q]?) =
      (xs.filter kind).map some := by
  induction xs with
  | nil => rfl
  | cons x xs ih =>
    have hrest : (((List.range xs.length).map Nat.succ).filter fun q => (x :: xs)[q]?.any kind).map
        (fun q => (x :: xs)[q]?) = (xs.filter kind).map some := by
      rw [List.filter_map, List.map_map, ← ih]
      rfl
    rw [List.length_cons, List.range_succ_eq_map, List.filter_cons, List.filter_cons]
    cases hx : kind x <;> simp [hx, hrest]

namespace Program

/-- The places of instructions on slots lead to those instructions. -/
theorem map_slotPlaces (p : Program) :
    p.slotPlaces.map (fun q => p.code[q]?.map fun o => (o.op, o.operand)) =
      (slotCode p.code.toList).map some := by
  have hmap := congrArg (List.map (Option.map fun o => (o.op, o.operand)))
    (map_filter_range p.code.toList fun o => o.op.usesSlot)
  simp only [Array.length_toList, Array.getElem?_toList, List.map_map] at hmap
  rw [slotCode, List.map_map]
  exact hmap

/-- There is one place for each instruction on a slot. -/
theorem length_slotPlaces (p : Program) :
    p.slotPlaces.length = (slotCode p.code.toList).length := by
  simpa using congrArg List.length p.map_slotPlaces

/-- The place of an instruction on a slot. -/
theorem slotPlaces_get {p : Program} {i : Nat} {op : Opcode} {operand : UInt64}
    (h : (slotCode p.code.toList)[i]? = some (op, operand)) :
    ∃ q o, p.slotPlaces[i]? = some q ∧ p.code[q]? = some o ∧ o.op = op ∧ o.operand = operand := by
  have hmap := congrArg (·[i]?) p.map_slotPlaces
  simp only [List.getElem?_map, h, Option.map_some] at hmap
  obtain ⟨q, hq, hcode⟩ := Option.map_eq_some_iff.mp hmap
  obtain ⟨o, ho, heq⟩ := Option.map_eq_some_iff.mp hcode
  cases heq
  exact ⟨q, o, hq, ho, rfl, rfl⟩

end Program

/-- A list around one of its elements. -/
theorem eq_take_append_cons {xs : List α} {i : Nat} {x : α} (h : xs[i]? = some x) :
    xs = xs.take i ++ x :: xs.drop (i + 1) := by
  obtain ⟨hi, rfl⟩ := List.getElem?_eq_some_iff.mp h
  rw [← List.drop_eq_getElem_cons hi, List.take_append_drop]

section

variable {t : Tree Cell} {imports : List Import} {p : Program}

/-- The instruction for an access is on the slot of the access. -/
theorem compile_slot (h : compile t imports = .ok p) {i : Nat} {a : Access}
    (ha : t.accesses[i]? = some a) :
    ∃ k q o, a.slot? t.accesses (t.accesses.take i) = some k ∧ p.slotPlaces[i]? = some q ∧
      p.code[q]? = some o ∧ o.op = a.op ∧ o.operand = UInt64.ofNat k := by
  obtain ⟨k, hk, hget⟩ := (compile_fits h).get ha
  rw [List.nil_append] at hk
  obtain ⟨q, o, hq, ho, hop, hoperand⟩ := Program.slotPlaces_get hget
  exact ⟨k, q, o, hk, hq, ho, hop, hoperand⟩

/-- There are not more slots than instructions. -/
theorem compile_slot_lt (h : compile t imports = .ok p) {i k : Nat} {a : Access}
    (ha : t.accesses[i]? = some a) (hk : a.slot? t.accesses (t.accesses.take i) = some k) :
    k < p.code.size := by
  have hname := Access.getElem?_slot (eq_take_append_cons ha) hk
  have hlt := (List.getElem?_eq_some_iff.mp hname).1
  have hdeclared := length_declaredBy_le a.owner t.accesses
  have hplaces : p.slotPlaces.length ≤ p.code.size := by
    simpa [Program.slotPlaces] using List.length_filter_le
      (fun q => p.code[q]?.any fun o => o.op.usesSlot) (List.range p.code.size)
  have hlength : (slotCode p.code.toList).length = t.accesses.length := by
    simpa using congrArg List.length (compile_fits h).ops
  rw [← p.length_slotPlaces] at hlength
  omega

end

end StackScript
