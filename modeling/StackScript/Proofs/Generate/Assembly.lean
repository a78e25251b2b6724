import StackScript.Proofs.Generate.Marking

/-!
# How generated code is put together

Generated code is put together from pieces of four kinds: straight code, markers of labels, values
that are returned, and the beginnings of functions (`Assembled`). What holds of these pieces, and is
kept when they are put together, holds of all generated code. So the code of a program is a stream
that can be linked (`Tree.Emits.wellMarked`), in front of a return there is always the end of the
value that it returns (`Tree.Emits.backed`), the labels of functions are those of the functions of
the tree (`Tree.Emits.entries`), every jump goes to a label of the code, but for calls, which go to
the functions that they name (`Tree.Emits.aims`), and all operations are defined
(`Tree.Emits.valid`).
-/

namespace StackScript

open Instruction

variable {K : List Cell} {a b code : List Instruction} {p : Nat → Prop} {t : Tree Cell}
  {targets functions : List Bytes}

/-- Code that is put together from pieces whose jumps go to the targets. Its labels, those of
functions aside, have certain numbers, and those of functions are given in order. -/
inductive Assembled (targets : List Bytes) :
    (Nat → Prop) → List Bytes → List Instruction → Prop
  | straight {code : List Instruction} (h : Straight targets code) :
      Assembled targets (fun _ => False) [] code
  | ret {code : List Instruction} (h : Straight targets code) (hne : code ≠ []) :
      Assembled targets (fun _ => False) [] (code ++ [on .ret 0])
  | marker (n : Nat) (w : Bytes) :
      Assembled targets (fun m => m = n) [] [marker (generatedLabel n w)]
  | entry (name : Bytes) (k : Nat) :
      Assembled targets (fun _ => False) [functionLabel name]
        [marker (functionLabel name), on .frame k]
  | append {p q : Nat → Prop} {fs gs : List Bytes} {a b : List Instruction}
      (ha : Assembled targets p fs a) (hb : Assembled targets q gs b)
      (hdisjoint : ∀ n, p n → ¬q n) :
      Assembled targets (fun n => p n ∨ q n) (fs ++ gs) (a ++ b)
  | weaken {p q : Nat → Prop} {fs gs : List Bytes} {code : List Instruction}
      (h : Assembled targets p fs code) (hpq : ∀ n, p n → q n) (hfs : fs = gs) :
      Assembled targets q gs code

/-- The labels of functions in code. -/
def entriesOf (code : List Instruction) : List Bytes := (labelsOf code).filter isFunctionLabel

/-- The labels of functions in pieces of code that are put together. -/
theorem entriesOf_append (a b : List Instruction) :
    entriesOf (a ++ b) = entriesOf a ++ entriesOf b := by
  unfold entriesOf
  rw [labelsOf_append, List.filter_append]

/-- Straight code has no label of a function. -/
theorem Straight.entries (h : Straight targets code) : entriesOf code = [] := by
  unfold entriesOf
  rw [h.labels]
  rfl

/-- One instruction can stand in front of another: a return has an instruction in front of it that
neither marks a place nor returns. -/
def Backs (x y : Instruction) : Prop := y.op = .ret → x.op ≠ .noop ∧ x.op ≠ .ret

/-- Code without returns has nothing in front of them. -/
theorem Straight.isChain_backs (h : Straight targets code) : code.IsChain Backs :=
  List.isChain_iff_getElem.mpr fun _ _ hret => absurd hret (h _ (List.getElem_mem _)).ne_ret

namespace Assembled

/-- Code that is put together from pieces is tidy. -/
theorem tidy (h : Assembled targets p functions code) : Tidy p code := by
  induction h with
  | straight h => exact h.tidy
  | ret h hne => exact h.tidy_ret hne
  | marker n w => exact tidy_marker n w
  | entry name k => exact tidy_entry name k
  | append _ _ hdisjoint iha ihb => exact iha.append ihb hdisjoint
  | weaken _ hpq _ ih => exact ih.mono hpq

/-- The labels of functions in code that is put together from pieces. -/
theorem entries (h : Assembled targets p functions code) : entriesOf code = functions := by
  induction h with
  | straight h => exact h.entries
  | ret h _ =>
    rw [entriesOf_append, h.entries]
    rfl
  | marker n w => rfl
  | entry name k => rfl
  | append _ _ _ iha ihb => rw [entriesOf_append, iha, ihb]
  | weaken _ _ hfs ih => rw [ih, hfs]

/-- In code that is put together from pieces every return stands behind the value that it
returns. -/
theorem backed (h : Assembled targets p functions code) : code.IsChain Backs := by
  induction h with
  | straight h => exact h.isChain_backs
  | ret h hne =>
    refine List.isChain_append.mpr ⟨h.isChain_backs, .singleton _, fun x hx y _ _ => ?_⟩
    have hlast := h x (List.mem_of_mem_getLast? hx)
    exact ⟨hlast.ne_noop, hlast.ne_ret⟩
  | marker n w => exact .singleton _
  | entry name k => exact List.isChain_pair.mpr fun hret => by cases hret
  | append _ hb _ iha ihb =>
    -- No piece begins with a return.
    exact List.isChain_append.mpr ⟨iha, ihb, fun x _ y hy hret =>
      absurd hret (hb.tidy.first y hy)⟩
  | weaken _ _ _ ih => exact ih

/-- The jumps of code that is put together from pieces go to the targets. -/
theorem aims (h : Assembled targets p functions code) : ∀ i ∈ code, i.op.isJump = true →
    i.op = .call ∧ i.target = functionLabel i.callee ∨ i.target ∈ targets := by
  induction h with
  | straight h => exact fun i hi => (h i hi).aims
  | ret h _ =>
    refine List.forall_mem_append.mpr ⟨fun i hi => (h i hi).aims, ?_⟩
    exact List.forall_mem_singleton.mpr fun hjump => by cases hjump
  | marker n w => exact List.forall_mem_singleton.mpr fun hjump => by cases hjump
  | entry name k =>
    refine List.forall_mem_cons.mpr ⟨fun hjump => (by cases hjump), ?_⟩
    exact List.forall_mem_singleton.mpr fun hjump => by cases hjump
  | append _ _ _ iha ihb => exact List.forall_mem_append.mpr ⟨iha, ihb⟩
  | weaken _ _ _ ih => exact ih

/-- The operations of code that is put together from pieces are defined. -/
theorem valid (h : Assembled targets p functions code) : ∀ i ∈ code, i.op.isValid = true := by
  induction h with
  | straight h => exact fun i hi => (h i hi).valid
  | ret h _ =>
    exact List.forall_mem_append.mpr ⟨fun i hi => (h i hi).valid, List.forall_mem_singleton.mpr rfl⟩
  | marker n w => exact List.forall_mem_singleton.mpr rfl
  | entry name k => exact List.forall_mem_cons.mpr ⟨rfl, List.forall_mem_singleton.mpr rfl⟩
  | append _ _ _ iha ihb => exact List.forall_mem_append.mpr ⟨iha, ihb⟩
  | weaken _ _ _ ih => exact ih

end Assembled

/-- Leaving a function with the value false is a value that is returned. -/
theorem EmitsFalse.assembled (h : EmitsFalse K code) (targets : List Bytes) :
    Assembled targets (fun _ => False) [] code := by
  obtain ⟨k, -, rfl⟩ := h
  exact .ret (straight_on .constant k (by decide)) (by simp)

/-- A jump to a target and a marker behind it. -/
theorem assembled_jump_marker {l : Bytes} (hl : l ∈ targets) (n : Nat) (w : Bytes) :
    Assembled targets (fun m => False ∨ m = n) []
      [jumpTo .jump l, marker (generatedLabel n w)] :=
  .append (.straight (straight_jumpTo .jump hl (by decide))) (.marker n w) fun _ => False.elim

/-- The label of a marker is among the targets if all labels of the code are. -/
theorem mem_of_marker {n : Nat} {w : Bytes} (h : labelsOf code ⊆ targets)
    (hmem : marker (generatedLabel n w) ∈ code) : generatedLabel n w ∈ targets :=
  h (mem_labelsOf.mpr ⟨generatedLabel_ne_nil n w, _, hmem, rfl⟩)

/-- The number of labels after more were made. -/
theorem Progress.label_labels (σ : Progress) (n : Nat) : (σ.label n).labels = σ.labels + n := rfl

/-- A counting loop has two labels at least. -/
theorem Progress.enterCount_labels (σ : Progress) (index : Bytes) :
    σ.labels + 2 ≤ (σ.enterCount index).labels := by
  change _ ≤ σ.labels + if index.isEmpty then 3 else 2
  split <;> omega

/-- The labels that are made from one progress to another. -/
def Progress.made (σ τ : Progress) (n : Nat) : Prop := σ.labels < n ∧ n ≤ τ.labels

/-- The labels of functions. -/
abbrev entryLabels (ds : List Function) : List Bytes := ds.map fun d => functionLabel d.name

/-- Straight code makes no labels. -/
theorem Straight.assembled (h : Straight targets code) (σ : Progress) :
    σ.labels ≤ σ.labels ∧ Assembled targets (σ.made σ) [] code :=
  ⟨Nat.le_refl _, .weaken (.straight h) (fun _ => False.elim) rfl⟩

/-- The code of a statement is put together from pieces, with the labels that are made in it. Its
jumps go to its own labels, or behind the loop around it. -/
def Stmt.Assembles (s : Stmt Cell) : Prop :=
  ∀ {K stop σ τ code targets}, s.Emits K stop σ code τ → labelsOf code ⊆ targets →
    (∀ l, stop = some l → l ∈ targets) →
    σ.labels ≤ τ.labels ∧ Assembled targets (σ.made τ) (entryLabels s.functions) code

/-- The code of a branch is put together if that of its parts is. -/
theorem branch_assembles {yes no : Stmt Cell} (pos : Position) (cond : Expr Cell)
    (hyes : yes.Assembles) (hno : no.Assembles) : (Stmt.branch pos cond yes no).Assembles := by
  intro K stop σ τ code targets h hlabels hstop
  rw [Stmt.Emits] at h
  split at h
  · rename_i habsent
    obtain ⟨c, y, hc, hy, rfl⟩ := h
    obtain rfl := Stmt.eq_absent habsent
    have hdone := mem_of_marker (n := σ.labels + 1) (w := "end") hlabels (by simp)
    simp only [labelsOf_append, List.append_subset] at hlabels
    obtain ⟨hle, hy⟩ := hyes hy hlabels.1.2 hstop
    have htest := Assembled.straight
      ((hc.straight targets).1.append (straight_jumpTo .jumpUnless hdone (by decide)))
    have htail := assembled_jump_marker hdone (σ.labels + 1) "end"
    rw [Progress.label_labels] at hle
    refine ⟨by omega, ((htest.append hy ?_).append htail ?_).weaken ?_
        (by simp [Stmt.functions])⟩ <;>
      simp only [Progress.made, Progress.label_labels, false_or, false_implies, implies_true] <;>
      omega
  · obtain ⟨c, y, n, ρ, hc, hy, hn, rfl⟩ := h
    have hdone := mem_of_marker (n := σ.labels + 1) (w := "end") hlabels (by simp)
    have hother := mem_of_marker (n := σ.labels + 2) (w := "false") hlabels (by simp)
    simp only [labelsOf_append, List.append_subset] at hlabels
    obtain ⟨hle, hy⟩ := hyes hy hlabels.1.1.1.2 hstop
    obtain ⟨hle', hn⟩ := hno hn hlabels.1.2 hstop
    have htest := Assembled.straight
      ((hc.straight targets).1.append (straight_jumpTo .jumpUnless hother (by decide)))
    have hmid := assembled_jump_marker hdone (σ.labels + 2) "false"
    rw [Progress.label_labels] at hle
    refine ⟨by omega, ((((htest.append hy ?_).append hmid ?_).append hn ?_).append
        (.marker (σ.labels + 1) "end") ?_).weaken ?_ (by simp [Stmt.functions])⟩ <;>
      simp only [Progress.made, Progress.label_labels, false_or, false_implies, implies_true] <;>
      omega

/-- The code of a loop is put together if that of its body is. -/
theorem whileLoop_assembles {body : Stmt Cell} (pos : Position) (cond : Expr Cell)
    (hbody : body.Assembles) : (Stmt.whileLoop pos cond body).Assembles := by
  rintro K stop σ τ code targets ⟨c, b, hc, hb, rfl⟩ hlabels -
  have hstart := mem_of_marker (n := σ.labels + 1) (w := "begin") hlabels (by simp)
  have hdone := mem_of_marker (n := σ.labels + 2) (w := "end") hlabels (by simp)
  simp only [labelsOf_append, List.append_subset] at hlabels
  -- A `leave` in the body goes behind this loop and not behind the one around it.
  obtain ⟨hle, hb⟩ := hbody hb hlabels.1.2 fun l hl => Option.some.inj hl ▸ hdone
  have hhead := ((Assembled.marker (σ.labels + 1) "begin").append
    (.straight (hc.straight targets).1) (by simp)).append
    (.straight (straight_jumpTo .jumpUnless hdone (by decide))) (by simp)
  have htail := assembled_jump_marker hstart (σ.labels + 2) "end"
  rw [Progress.label_labels] at hle
  refine ⟨by omega, ((hhead.append hb ?_).append htail ?_).weaken ?_
      (by simp [Stmt.functions])⟩ <;>
    simp only [Progress.made, Progress.label_labels, false_or, or_false] <;> omega

/-- The code of a counting loop is put together if that of its body is. -/
theorem countLoop_assembles {body : Stmt Cell} (pos : Position) (index : Bytes)
    (count : Expr Cell) (hbody : body.Assembles) :
    (Stmt.countLoop pos index count body).Assembles := by
  rintro K stop σ τ code targets ⟨c, b, k, k0, k1, -, -, hc, hb, -, rfl⟩ hlabels -
  have hstart := mem_of_marker (n := σ.labels + 1) (w := "begin") hlabels (by simp)
  have hdone := mem_of_marker (n := σ.labels + 2) (w := "end") hlabels (by simp)
  simp only [labelsOf_append, List.append_subset] at hlabels
  obtain ⟨hle, hb⟩ := hbody hb hlabels.1.2 fun l hl => Option.some.inj hl ▸ hdone
  have hcount := σ.enterCount_labels index
  -- The pieces in order: the start, the marker and the test, the body, the increment, the end.
  have hset : Assembled targets _ _ _ :=
    .append (.straight ((straight_on .constant k0 (by decide)).append
      (straight_on .store k (by decide)))) (.marker (σ.labels + 1) "begin") (by simp)
  have htest := ((hset.append (.straight (straight_on .load k (by decide))) (by simp)).append
    (.straight (hc.straight targets).1) (by simp)).append
    (.straight ((straight_on .lt 0 (by decide)).append
      (straight_jumpTo .jumpUnless hdone (by decide)))) (by simp)
  have hnext := (Assembled.straight (((straight_on .load k (by decide)).append
    (straight_on .constant k1 (by decide))).append ((straight_on .add 0 (by decide)).append
    (straight_on .store k (by decide))))).append
    (assembled_jump_marker hstart (σ.labels + 2) "end") (by simp)
  refine ⟨by omega, ((htest.append hb ?_).append hnext ?_).weaken ?_
      (by simp [Stmt.functions])⟩ <;>
    simp only [Progress.made, false_or, or_false] <;> omega

/-- The code of a function is put together if that of its body is. -/
theorem define_assembles {body : Stmt Cell} (pos : Position) (name : Bytes) (params : List Bytes)
    (hbody : body.Assembles) : (Stmt.define pos name params body).Assembles := by
  rintro K stop σ τ code targets ⟨b, r, ρ, hb, hr, rfl, rfl⟩ hlabels hstop
  have hdone := mem_of_marker (n := σ.labels + 1) (w := "function-end") hlabels (by simp)
  simp only [labelsOf_append, List.append_subset] at hlabels
  -- A function does not end the loop around it: a `leave` in its body may still go there.
  obtain ⟨hle, hb⟩ := hbody hb hlabels.1.1.2 hstop
  have hhead := ((Assembled.straight (straight_jumpTo .jump hdone (by decide))).append
    (.entry name ρ.slots.length) (by simp)).append (.straight (straight_storesOf params)) (by simp)
  have hle : σ.labels + 1 ≤ ρ.labels := hle
  refine ⟨by simp only; omega, (((hhead.append hb ?_).append (hr.assembled targets) ?_).append
      (.marker (σ.labels + 1) "function-end") ?_).weaken ?_ (by simp [Stmt.functions])⟩ <;>
    simp only [Progress.made, false_or, or_false, false_implies, not_false_eq_true,
      implies_true] <;> omega

mutual

/-- The code of every statement is put together from pieces. -/
theorem Stmt.assembles (s : Stmt Cell) : s.Assembles := by
  intro K stop σ τ code targets h hlabels hstop
  match s with
  | .absent =>
    obtain ⟨rfl, rfl⟩ := h
    exact Straight.assembled (List.forall_mem_nil _) _
  | .block _ body => exact Stmt.EmitsAll.assembled h hlabels hstop
  | .declare _ x value =>
    obtain ⟨c, hc, rfl, rfl⟩ := h
    exact ((hc.straight targets).1.append (straight_on .store _ (by decide))).assembled _
  | .assign _ x value =>
    obtain ⟨c, k, hc, -, rfl, rfl⟩ := h
    exact ((hc.straight targets).1.append (straight_on .store _ (by decide))).assembled _
  | .assignElement _ x row col value =>
    obtain ⟨r, c, v, k, hr, hc, hv, -, rfl, rfl⟩ := h
    have hvalues := ((hr.straight targets).1.append (hc.straight targets).1).append
      (hv.straight targets).1
    exact (hvalues.append (straight_on .writeArray k (by decide))).assembled _
  | .branch pos cond yes no =>
    exact branch_assembles pos cond (Stmt.assembles yes) (Stmt.assembles no) h hlabels hstop
  | .whileLoop pos cond body =>
    exact whileLoop_assembles pos cond (Stmt.assembles body) h hlabels hstop
  | .countLoop pos index count body =>
    exact countLoop_assembles pos index count (Stmt.assembles body) h hlabels hstop
  | .leave _ =>
    obtain ⟨label, rfl, rfl, rfl⟩ := h
    exact (straight_jumpTo .jump (hstop label rfl) (by decide)).assembled _
  | .giveBack _ value =>
    rw [Stmt.Emits] at h
    split at h
    · obtain ⟨hr, rfl⟩ := h
      exact ⟨Nat.le_refl _, (hr.assembled targets).weaken (fun _ => False.elim) rfl⟩
    · obtain ⟨c, hc, rfl, rfl⟩ := h
      -- The value has an instruction, so this return does not stand directly behind another one.
      exact ⟨Nat.le_refl _, (Assembled.ret (hc.straight targets).1 (hc.straight targets).2).weaken
        (fun _ => False.elim) rfl⟩
  | .define pos name params body =>
    exact define_assembles pos name params (Stmt.assembles body) h hlabels hstop
  | .perform _ name args =>
    obtain ⟨c, hc, rfl, rfl⟩ := h
    exact ((Expr.EmitsArguments.straight hc targets).append
      ((straight_callOf name _).append (straight_on .pop 0 (by decide)))).assembled _

/-- The code of statements in sequence is put together from pieces. -/
theorem Stmt.EmitsAll.assembled {K : List Cell} {stop : Option Bytes} {ss : List (Stmt Cell)}
    {σ τ : Progress} {code : List Instruction} (h : Stmt.EmitsAll K stop ss σ code τ)
    {targets : List Bytes} (hlabels : labelsOf code ⊆ targets)
    (hstop : ∀ l, stop = some l → l ∈ targets) : σ.labels ≤ τ.labels ∧
      Assembled targets (σ.made τ) (entryLabels (Stmt.allFunctions ss)) code := by
  match ss with
  | [] =>
    obtain ⟨rfl, rfl⟩ := h
    exact Straight.assembled (List.forall_mem_nil _) _
  | s :: ss =>
    obtain ⟨c, rest, ρ, hs, hr, rfl⟩ := h
    rw [labelsOf_append, List.append_subset] at hlabels
    obtain ⟨hle, hs⟩ := Stmt.assembles s hs hlabels.1 hstop
    obtain ⟨hle', hr⟩ := Stmt.EmitsAll.assembled hr hlabels.2 hstop
    refine ⟨Nat.le_trans hle hle', (hs.append hr ?_).weaken ?_ (by simp [Stmt.allFunctions])⟩ <;>
      simp only [Progress.made] <;> omega

end

/-- Labels are only added. -/
theorem Stmt.Emits.labels_le {stop : Option Bytes} {s : Stmt Cell} {σ τ : Progress}
    (h : s.Emits K stop σ code τ) : σ.labels ≤ τ.labels :=
  (s.assembles h (List.subset_append_left _ stop.toList) fun l hl => by simp [hl]).1

namespace Tree.Emits

/-- The code of a program is put together from pieces, and its jumps go to its own labels: no loop
is around it. -/
theorem assembled (h : t.Emits K code) :
    ∃ p, Assembled (labelsOf code) p (entryLabels t.functions) code := by
  obtain ⟨b, r, ρ, hb, hr, rfl⟩ := h
  have hsub : labelsOf b ⊆ labelsOf ([on .frame ρ.slots.length] ++ b ++ r) := by
    simp only [labelsOf_append]
    exact fun l hl => List.mem_append_left _ (List.mem_append_right _ hl)
  obtain ⟨-, hb⟩ := Stmt.EmitsAll.assembled hb hsub fun l hl => by cases hl
  refine ⟨_, .weaken (.append (.append (.straight (straight_on .frame _ (by decide))) hb ?_)
    (hr.assembled _) ?_) (fun _ h => h) (by simp [Tree.functions])⟩ <;> simp

/-- The code of a program can be linked as far as its labels go. -/
theorem wellMarked (h : t.Emits K code) : WellMarked code := by
  obtain ⟨p, hcode⟩ := h.assembled
  have hcode := hcode.tidy
  obtain ⟨b, r, ρ, -, ⟨k, -, rfl⟩, rfl⟩ := h
  refine
    { marks := hcode.marks
      returns := hcode.returns
      entries := hcode.entries
      once := hcode.once
      last := ?_ }
  intro i hi
  rw [List.getLast?_append_of_ne_nil _ (by simp)] at hi
  cases hi
  exact nofun

/-- In the code of a program every return stands behind the value that it returns. -/
theorem backed (h : t.Emits K code) : code.IsChain Backs :=
  let ⟨_, hcode⟩ := h.assembled
  hcode.backed

/-- The labels of functions in a program are those of its functions. -/
theorem entries (h : t.Emits K code) : entriesOf code = entryLabels t.functions :=
  let ⟨_, hcode⟩ := h.assembled
  hcode.entries

/-- The jumps of a program go to its labels, and its calls to the functions that they name. -/
theorem aims (h : t.Emits K code) : ∀ i ∈ code, i.op.isJump = true →
    i.op = .call ∧ i.target = functionLabel i.callee ∨ i.target ∈ labelsOf code :=
  let ⟨_, hcode⟩ := h.assembled
  hcode.aims

/-- The operations of a program are defined. -/
theorem valid (h : t.Emits K code) : ∀ i ∈ code, i.op.isValid = true :=
  let ⟨_, hcode⟩ := h.assembled
  hcode.valid

end Tree.Emits

end StackScript
