import StackScript.Proofs.Link.Stream

/-!
# Labels of generated code

The labels of generated code are numbered, and a number is used once. `Tidy` collects what is known
of a piece of generated code whose labels have given numbers, in a form in which pieces can be put
together if their numbers differ. Straight code has no labels: that of expressions is straight.
-/

namespace StackScript

open Instruction

variable {a b code : List Instruction} {m n : Nat} {p q : Nat → Prop} {targets : List Bytes}

/-- The number that decimal digits spell behind `n`. -/
def spelled (n : Nat) (digits : Bytes) : Nat := digits.foldl (fun a b => a * 10 + (b.toNat - 48)) n

/-- The code of a digit. -/
theorem digit_toNat (h : n < 10) : (digit n).toNat = 48 + n := by
  unfold digit
  rw [if_pos h, UInt8.toNat_ofNat_of_lt']
  · exact Nat.lt_of_lt_of_le (Nat.add_lt_add_left h 48) (by decide)

/-- The digits of a number spell it. -/
theorem spelled_decimalOnto (n : Nat) (rest : Bytes) :
    spelled 0 (decimalOnto n rest) = spelled n rest := by
  induction n, rest using decimalOnto.induct with
  | case1 n rest h =>
    rw [decimalOnto, if_pos h]
    simp [spelled, digit_toNat h]
  | case2 n rest h ih =>
    rw [decimalOnto, if_neg h, ih]
    simp only [spelled, List.foldl_cons, digit_toNat (Nat.mod_lt n (by decide : 10 > 0)),
      Nat.add_sub_cancel_left]
    rw [Nat.mul_comm, Nat.div_add_mod]

/-- The digits of a number are no hyphens. -/
theorem hyphen_not_mem_decimalOnto (n : Nat) (rest : Bytes) (h : (45 : UInt8) ∉ rest) :
    (45 : UInt8) ∉ decimalOnto n rest := by
  have hdigit {n : Nat} (hn : n < 10) : (45 : UInt8) ≠ digit n := by
    intro he
    have := congrArg UInt8.toNat he
    rw [digit_toNat hn] at this
    change 45 = _ at this
    omega
  induction n, rest using decimalOnto.induct with
  | case1 n rest hn =>
    rw [decimalOnto, if_pos hn, List.mem_cons, not_or]
    exact ⟨hdigit hn, h⟩
  | case2 n rest hn ih =>
    rw [decimalOnto, if_neg hn]
    apply ih
    rw [List.mem_cons, not_or]
    exact ⟨hdigit (Nat.mod_lt n (by decide : 10 > 0)), h⟩

/-- Labels that are equal have the same number. -/
theorem generatedLabel_inj {v w : Bytes} (h : generatedLabel m v = generatedLabel n w) : m = n := by
  have hcut (n : Nat) (w : Bytes) :
      ((generatedLabel n w).drop 2).takeWhile (fun b => b != 45) = decimal n := by
    change (decimal n ++ [45] ++ w).takeWhile _ = _
    rw [List.append_assoc, List.takeWhile_append_of_pos]
    · simp
    · intro b hb
      have := hyphen_not_mem_decimalOnto n [] (by simp)
      simpa using fun he : b = 45 => this (he ▸ hb)
  have hdecimal : decimal m = decimal n := by rw [← hcut m v, h, hcut]
  have := congrArg (spelled 0) hdecimal
  unfold decimal at this
  rwa [spelled_decimalOnto, spelled_decimalOnto] at this

/-- Hidden names that are equal have the same number. -/
theorem hiddenName_inj (h : hiddenName m = hiddenName n) : m = n := by
  unfold hiddenName at h
  rw [List.append_assoc, List.append_assoc] at h
  exact generatedLabel_inj (List.append_cancel_right (List.append_cancel_left h))

/-- A generated label is no function's. -/
theorem isFunctionLabel_generatedLabel (n : Nat) (w : Bytes) :
    isFunctionLabel (generatedLabel n w) = false := rfl

/-- A generated label is not empty. -/
theorem generatedLabel_ne_nil (n : Nat) (w : Bytes) : generatedLabel n w ≠ [] := nofun

/-- A piece of generated code whose labels, those of functions aside, have certain numbers. -/
structure Tidy (numbers : Nat → Prop) (code : List Instruction) : Prop where
  /-- The markers are exactly the instructions with labels. -/
  marks : ∀ i ∈ code, i.op = .noop ↔ i.label ≠ []
  /-- No return follows another. -/
  returns : code.IsChain fun x y => x.op = .ret → y.op ≠ .ret
  /-- The label of a function stands in front of an instruction without a label. -/
  entries : code.IsChain fun x y => isFunctionLabel x.label = true → y.label = []
  /-- A label is the one of a function or has one of the numbers. -/
  numbered : ∀ l ∈ labelsOf code, isFunctionLabel l = false →
    ∃ n w, numbers n ∧ l = generatedLabel n w
  /-- A number is used once. -/
  once : ((labelsOf code).filter fun l => !isFunctionLabel l).Nodup
  /-- The code does not begin with a return. -/
  first : ∀ i ∈ code.head?, i.op ≠ .ret
  /-- The code does not end in the label of a function. -/
  last : ∀ i ∈ code.getLast?, isFunctionLabel i.label = false

namespace Tidy

/-- Pieces whose numbers differ can be put together. -/
theorem append (ha : Tidy p a) (hb : Tidy q b) (hdisjoint : ∀ n, p n → ¬q n) :
    Tidy (fun n => p n ∨ q n) (a ++ b) where
  marks := by
    intro i hi
    rcases List.mem_append.mp hi with hi | hi
    · exact ha.marks i hi
    · exact hb.marks i hi
  returns := List.isChain_append.mpr ⟨ha.returns, hb.returns, fun _ _ y hy _ => hb.first y hy⟩
  entries := List.isChain_append.mpr ⟨ha.entries, hb.entries, fun x hx _ _ h => by
    rw [ha.last x hx] at h
    cases h⟩
  numbered := by
    intro l hl hf
    rw [labelsOf_append] at hl
    rcases List.mem_append.mp hl with hl | hl
    · obtain ⟨n, w, hn, rfl⟩ := ha.numbered l hl hf
      exact ⟨n, w, .inl hn, rfl⟩
    · obtain ⟨n, w, hn, rfl⟩ := hb.numbered l hl hf
      exact ⟨n, w, .inr hn, rfl⟩
  once := by
    rw [labelsOf_append, List.filter_append, List.nodup_append]
    refine ⟨ha.once, hb.once, fun l hl l' hl' he => ?_⟩
    -- A label of both pieces would have one number, which only one of them may use.
    subst he
    rw [List.mem_filter] at hl hl'
    obtain ⟨m, v, hm, rfl⟩ := ha.numbered l hl.1 (by simpa using hl.2)
    obtain ⟨n, w, hn, he⟩ := hb.numbered _ hl'.1 (by simpa using hl'.2)
    rw [generatedLabel_inj he] at hm
    exact hdisjoint n hm hn
  first := by
    intro i hi
    rw [List.head?_append] at hi
    cases h : a.head? with
    | none => exact hb.first i (by simpa [h] using hi)
    | some j => exact ha.first i (by simpa [h] using hi)
  last := by
    intro i hi
    rw [List.getLast?_append] at hi
    cases h : b.getLast? with
    | none => exact ha.last i (by simpa [h] using hi)
    | some j => exact hb.last i (by simpa [h] using hi)

/-- Numbers may be added to those that are used. -/
theorem mono (h : Tidy p code) (hpq : ∀ n, p n → q n) : Tidy q code :=
  { h with
    numbered := fun l hl hf =>
      let ⟨n, w, hn, he⟩ := h.numbered l hl hf
      ⟨n, w, hpq n hn, he⟩ }

end Tidy

/-- A defined instruction that neither marks a place nor returns. If it is a jump, it is the call of
a function by its label or goes to one of the targets. -/
structure Instruction.Plain (targets : List Bytes) (i : Instruction) : Prop where
  valid : i.op.isValid = true
  ne_noop : i.op ≠ .noop
  ne_ret : i.op ≠ .ret
  label : i.label = []
  aims : i.op.isJump = true →
    i.op = .call ∧ i.target = functionLabel i.callee ∨ i.target ∈ targets

/-- Code of plain instructions. -/
def Straight (targets : List Bytes) (code : List Instruction) : Prop :=
  ∀ i ∈ code, i.Plain targets

/-- Straight code can be put together. -/
theorem Straight.append (ha : Straight targets a) (hb : Straight targets b) :
    Straight targets (a ++ b) :=
  List.forall_mem_append.mpr ⟨ha, hb⟩

/-- Straight code has no labels. -/
theorem Straight.labels (h : Straight targets code) : labelsOf code = [] := by
  rw [List.eq_nil_iff_forall_not_mem]
  intro l hl
  obtain ⟨hne, i, hi, rfl⟩ := mem_labelsOf.mp hl
  exact hne (h i hi).label

/-- Straight code is tidy and uses no number. -/
theorem Straight.tidy (h : Straight targets code) : Tidy (fun _ => False) code := by
  have hlabels := h.labels
  exact
    { marks := fun i hi => by simp [(h i hi).ne_noop, (h i hi).label]
      returns := List.isChain_iff_getElem.mpr fun k _ hret =>
        absurd hret (h _ (List.getElem_mem _)).ne_ret
      entries := List.isChain_iff_getElem.mpr fun k _ _ => (h _ (List.getElem_mem _)).label
      numbered := fun l hl => by simp [hlabels] at hl
      once := by simp [hlabels]
      first := fun i hi => (h i (List.mem_of_mem_head? hi)).ne_ret
      last := fun i hi => by rw [(h i (List.mem_of_mem_getLast? hi)).label]; rfl }

/-- Straight code in front of a return is tidy unless it is empty. -/
theorem Straight.tidy_ret (h : Straight targets code) (hne : code ≠ []) :
    Tidy (fun _ => False) (code ++ [on .ret 0]) := by
  have hcode := h.tidy
  have hlabels : labelsOf (code ++ [on .ret 0]) = labelsOf code := by
    rw [labelsOf_append]
    exact List.append_nil _
  exact
    { marks := by
        intro i hi
        rcases List.mem_append.mp hi with hi | hi
        · exact hcode.marks i hi
        · obtain rfl := List.mem_singleton.mp hi
          simp [on]
      returns := List.isChain_append.mpr ⟨hcode.returns, .singleton _, fun x hx _ _ hret =>
        absurd hret (h x (List.mem_of_mem_getLast? hx)).ne_ret⟩
      entries := List.isChain_append.mpr ⟨hcode.entries, .singleton _, fun x hx _ _ hf => by
        rw [hcode.last x hx] at hf
        cases hf⟩
      numbered := by rw [hlabels]; exact hcode.numbered
      once := by rw [hlabels]; exact hcode.once
      first := by
        intro i hi
        rw [List.head?_append_of_ne_nil _ hne] at hi
        exact hcode.first i hi
      last := by
        intro i hi
        obtain rfl : on .ret 0 = i := by simpa using hi
        rfl }

/-- A marker uses its number. -/
theorem tidy_marker (n : Nat) (w : Bytes) :
    Tidy (fun m => m = n) [marker (generatedLabel n w)] where
  marks := by
    intro i hi
    obtain rfl := List.mem_singleton.mp hi
    simp [marker, generatedLabel_ne_nil]
  returns := .singleton _
  entries := .singleton _
  numbered := fun l hl _ => ⟨n, w, rfl, by simpa [labelsOf, marker, generatedLabel_ne_nil] using hl⟩
  once := by simp [labelsOf, marker, generatedLabel_ne_nil, isFunctionLabel_generatedLabel]
  first := by simp [marker]
  last := by simp [marker, isFunctionLabel_generatedLabel]

/-- The label of a function in front of its frame uses no number. -/
theorem tidy_entry (name : Bytes) (k : Nat) :
    Tidy (fun _ => False) [marker (functionLabel name), on .frame k] where
  marks := by
    intro i hi
    rcases List.mem_cons.mp hi with rfl | hi
    · exact ⟨fun _ => nofun, fun _ => rfl⟩
    · obtain rfl := List.mem_singleton.mp hi
      simp [on]
  returns := List.isChain_pair.mpr nofun
  entries := List.isChain_pair.mpr fun _ => rfl
  numbered := by
    intro l hl hf
    obtain rfl : l = functionLabel name := by
      obtain ⟨hne, i, hi, rfl⟩ := mem_labelsOf.mp hl
      rcases List.mem_cons.mp hi with rfl | hi
      · rfl
      · obtain rfl := List.mem_singleton.mp hi
        exact absurd rfl hne
    cases hf
  once := by
    have : labelsOf [marker (functionLabel name), on .frame k] = [functionLabel name] := rfl
    rw [this]
    exact List.nodup_nil
  first := by simp [marker]
  last := by simp [on, isFunctionLabel]

/-- One instruction that goes nowhere is straight. -/
theorem straight_on (op : Opcode) (n : Nat)
    (h : op.isValid = true ∧ op ≠ .noop ∧ op ≠ .ret ∧ op.isJump = false) :
    Straight targets [on op n] := by
  obtain ⟨hvalid, hnoop, hret, hjump⟩ := h
  exact List.forall_mem_singleton.mpr
    ⟨hvalid, hnoop, hret, rfl, fun h => absurd (h.symm.trans hjump) (by decide)⟩

/-- A jump to a target is straight. -/
theorem straight_jumpTo (op : Opcode) {l : Bytes} (hl : l ∈ targets)
    (h : op.isValid = true ∧ op ≠ .noop ∧ op ≠ .ret) : Straight targets [jumpTo op l] :=
  List.forall_mem_singleton.mpr ⟨h.1, h.2.1, h.2.2, rfl, fun _ => .inr hl⟩

/-- A call is straight. -/
theorem straight_callOf (name : Bytes) (k : Nat) : Straight targets [callOf name k] :=
  List.forall_mem_singleton.mpr
    ⟨rfl, (by decide : Opcode.call ≠ .noop), (by decide : Opcode.call ≠ .ret), rfl,
      fun _ => .inl ⟨rfl, rfl⟩⟩

/-- The code that stores arguments is straight. -/
theorem straight_storesOf (params : List Bytes) : Straight targets (storesOf params) := by
  intro i hi
  obtain ⟨x, -, rfl⟩ := List.mem_map.mp hi
  exact straight_on .store _ (by decide) _ (.head _)

mutual

/-- The code of an expression is straight, and it is not empty. -/
theorem Expr.Emits.straight {K : List Cell} {slots : List Bytes} {e : Expr Cell}
    {code : List Instruction} (h : e.Emits K slots code) (targets : List Bytes) :
    Straight targets code ∧ code ≠ [] := by
  match e with
  | .absent => exact h.elim
  | .literal _ v =>
    obtain ⟨k, -, rfl⟩ := h
    exact ⟨straight_on .constant k (by decide), by simp⟩
  | .load _ x =>
    obtain ⟨k, -, rfl⟩ := h
    exact ⟨straight_on .load k (by decide), by simp⟩
  | .element _ x row col =>
    obtain ⟨r, c, k, hr, hc, -, rfl⟩ := h
    exact ⟨((hr.straight targets).1.append (hc.straight targets).1).append
      (straight_on .readArray k (by decide)), by simp⟩
  | .newArray _ rows cols fill =>
    obtain ⟨r, c, k, hr, hc, -, rfl⟩ := h
    exact ⟨((hr.straight targets).1.append (hc.straight targets).1).append
      ((straight_on .constant k (by decide)).append (straight_on .makeArray 0 (by decide))),
      by simp⟩
  | .call _ name args =>
    obtain ⟨c, hc, rfl⟩ := h
    exact ⟨(Expr.EmitsArguments.straight hc targets).append (straight_callOf name _), by simp⟩
  | .binary _ op left right =>
    obtain ⟨l, r, o, ho, hl, hr, rfl⟩ := h
    have hop : o.isValid = true ∧ o ≠ .noop ∧ o ≠ .ret ∧ o.isJump = false := by
      cases op <;> cases ho <;> decide
    exact ⟨((hl.straight targets).1.append (hr.straight targets).1).append (straight_on o 0 hop),
      by simp⟩
  | .negation _ operand =>
    obtain ⟨c, hc, rfl⟩ := h
    exact ⟨(hc.straight targets).1.append (straight_on .not 0 (by decide)), by simp⟩

/-- The code of the arguments of a call is straight. -/
theorem Expr.EmitsArguments.straight {K : List Cell} {slots : List Bytes} {es : List (Expr Cell)}
    {code : List Instruction} (h : Expr.EmitsArguments K slots es code) (targets : List Bytes) :
    Straight targets code := by
  match es with
  | [] =>
    cases h
    exact List.forall_mem_nil _
  | e :: es =>
    obtain ⟨rest, c, hr, hc, rfl⟩ := h
    exact (Expr.EmitsArguments.straight hr targets).append (hc.straight targets).1

end

end StackScript
