import Mathlib.Data.List.Chain
import StackScript.Link.Labels

/-!
# Merging markers

Merging drops the markers of a stream and hands their labels on. Its recursion is packaged once, as
`merge_induction`: an instruction is kept, its label passes to the instruction behind it, or it
becomes an alias of the label there. Whether an instruction is removed, and the label that it has
afterwards, can be read off the stream without merging: `removed` and `mergedLabel` look only at
what stands directly in front. The other instructions stay in order, each with its merged label
(`merged_at`) and at a place that counts those in front of it (`markerPlace`).
-/

namespace StackScript

variable {l : Bytes} {i next x : Instruction} {code : List Instruction} {m : Nat}

/-- The labels of code in order. -/
def labelsOf (code : List Instruction) : List Bytes :=
  (code.map Instruction.label).filter fun l => !l.isEmpty

/-- Whether an instruction marks a place by a label of its own or by one that it inherits. -/
def Instruction.marks (inherits : Bool) (i : Instruction) : Bool :=
  i.op == .noop && (!i.label.isEmpty || inherits)

/-- The number of instructions that survive in front of the rest of a stream. -/
def survivors (inherits : Bool) : List Instruction → Nat
  | [] => 0
  | i :: rest =>
    if i.marks inherits then survivors true rest else survivors false rest + 1

/-- The labels of two pieces of code. -/
theorem labelsOf_append (a b : List Instruction) :
    labelsOf (a ++ b) = labelsOf a ++ labelsOf b := by
  unfold labelsOf
  rw [List.map_append, List.filter_append]

/-- An instruction without a label adds none. -/
theorem labelsOf_cons_of_empty (h : i.label = []) (code : List Instruction) :
    labelsOf (i :: code) = labelsOf code := by
  simp [labelsOf, h]

/-- The label of an instruction comes first. -/
theorem labelsOf_cons_of_label (h : i.label ≠ []) (code : List Instruction) :
    labelsOf (i :: code) = i.label :: labelsOf code := by
  simp [labelsOf, h]

/-- The labels are those instructions have. -/
theorem mem_labelsOf : l ∈ labelsOf code ↔ l ≠ [] ∧ ∃ i ∈ code, i.label = l := by
  unfold labelsOf
  rw [List.mem_filter, List.mem_map]
  constructor
  · rintro ⟨⟨i, hi, rfl⟩, hl⟩
    exact ⟨by simpa using hl, i, hi, rfl⟩
  · rintro ⟨hl, i, hi, rfl⟩
    exact ⟨⟨i, hi, rfl⟩, by simpa using hl⟩

/-- A marker has a label. -/
theorem Instruction.label_ne_of_isMarker (h : i.isMarker = true) : i.label ≠ [] := by
  simp_all [isMarker]

/-- A marker does nothing. -/
theorem Instruction.op_of_isMarker (h : i.isMarker = true) : i.op = .noop := by
  simp_all [isMarker]

/-- A marker is one when nothing is carried. -/
theorem Instruction.marks_of_marker (h : i.isMarker = true) : i.marks false = true := by
  simpa [marks, isMarker] using h

/-- Other instructions are none when nothing is carried. -/
theorem Instruction.marks_of_not_marker (h : i.isMarker = false) : i.marks false = false := by
  simpa [marks, isMarker] using h

/-! ## The recursion -/

/-- An instruction that takes over a label unless it has one of its own. -/
def Instruction.carrying (carried : Bytes) (i : Instruction) : Instruction :=
  if i.label.isEmpty then { i with label := carried } else i

/-- An instruction that is given no label is as before. -/
theorem Instruction.carrying_nil (i : Instruction) : i.carrying [] = i := by
  unfold carrying
  split
  · rename_i h
    rw [List.isEmpty_iff] at h
    rw [← h]
  · rfl

/-- An instruction without a label takes the one it is given. -/
theorem Instruction.carrying_of_empty (h : i.label = []) (carried : Bytes) :
    i.carrying carried = { i with label := carried } := by
  unfold carrying
  rw [if_pos (by simp [h])]

/-- The last instruction stays. -/
theorem mergeMarkers_single (carried : Bytes) (i : Instruction) :
    mergeMarkers carried [i] = ([i.carrying carried], []) := rfl

/-- An instruction is merged into the next if it marks that one only. -/
theorem mergeMarkers_cons (carried : Bytes) (i next : Instruction) (rest : List Instruction) :
    mergeMarkers carried (i :: next :: rest) =
      if !(i.carrying carried).isMarker then
        (i.carrying carried :: (mergeMarkers [] (next :: rest)).1,
          (mergeMarkers [] (next :: rest)).2)
      else if next.label.isEmpty then mergeMarkers (i.carrying carried).label (next :: rest)
      else
        ((mergeMarkers [] (next :: rest)).1,
          ((i.carrying carried).label, next.label) :: (mergeMarkers [] (next :: rest)).2) := rfl

/-- A label that is carried to a stream may as well stand in it. -/
theorem mergeMarkers_carry (carried : Bytes) (i : Instruction) (rest : List Instruction) :
    mergeMarkers carried (i :: rest) = mergeMarkers [] (i.carrying carried :: rest) := by
  cases rest with
  | nil => rw [mergeMarkers_single, mergeMarkers_single, Instruction.carrying_nil]
  | cons next rest => rw [mergeMarkers_cons, mergeMarkers_cons, Instruction.carrying_nil]

/-- An instruction that marks nothing is kept. -/
theorem mergeMarkers_keep (h : i.isMarker = false) (next : Instruction) (rest : List Instruction) :
    mergeMarkers [] (i :: next :: rest) =
      (i :: (mergeMarkers [] (next :: rest)).1, (mergeMarkers [] (next :: rest)).2) := by
  rw [mergeMarkers_cons, Instruction.carrying_nil, h]
  rfl

/-- The label of a marker passes to an instruction that has none. -/
theorem mergeMarkers_pass (h : i.isMarker = true) (hnext : next.label = [])
    (rest : List Instruction) :
    mergeMarkers [] (i :: next :: rest) =
      mergeMarkers [] ({ next with label := i.label } :: rest) := by
  rw [mergeMarkers_cons, Instruction.carrying_nil, h, if_neg (by simp), if_pos (by simp [hnext]),
    mergeMarkers_carry, Instruction.carrying_of_empty hnext]

/-- The label of a marker becomes an alias of a label behind it. -/
theorem mergeMarkers_join (h : i.isMarker = true) (hnext : next.label ≠ [])
    (rest : List Instruction) :
    mergeMarkers [] (i :: next :: rest) =
      ((mergeMarkers [] (next :: rest)).1,
        (i.label, next.label) :: (mergeMarkers [] (next :: rest)).2) := by
  rw [mergeMarkers_cons, Instruction.carrying_nil, h, if_neg (by simp),
    if_neg (by simpa using hnext)]

/-- The recursion of merging as an induction principle. -/
theorem merge_induction {motive : List Instruction → Prop} (nil : motive [])
    (single : ∀ i, motive [i])
    (keep : ∀ i next rest, i.isMarker = false → motive (next :: rest) → motive (i :: next :: rest))
    (pass : ∀ i next rest, i.isMarker = true → next.label = [] →
      motive ({ next with label := i.label } :: rest) → motive (i :: next :: rest))
    (join : ∀ i next rest, i.isMarker = true → next.label ≠ [] →
      motive (next :: rest) → motive (i :: next :: rest)) (code : List Instruction) :
    motive code := by
  -- The instruction in front may have got its label from one before it, so it is generalized.
  have hcons (rest : List Instruction) : ∀ i, motive (i :: rest) := by
    induction rest with
    | nil => exact single
    | cons next rest ih =>
      intro i
      cases hi : i.isMarker with
      | false => exact keep i next rest hi (ih next)
      | true =>
        by_cases hnext : next.label = []
        · exact pass i next rest hi hnext (ih _)
        · exact join i next rest hi hnext (ih next)
  cases code with
  | nil => exact nil
  | cons i rest => exact hcons rest i

/-! ## Labels -/

/-- Merging keeps every label, on an instruction that survives or as an alias. -/
theorem mergeMarkers_labels (code : List Instruction) :
    (labelsOf (mergeMarkers [] code).1 ++ (mergeMarkers [] code).2.map Prod.fst).Perm
      (labelsOf code) := by
  induction code using merge_induction with
  | nil => exact .refl _
  | single i =>
    rw [mergeMarkers_single, Instruction.carrying_nil]
    simp
  | keep i next rest hi ih =>
    rw [mergeMarkers_keep hi]
    by_cases hl : i.label = []
    · rw [labelsOf_cons_of_empty hl, labelsOf_cons_of_empty hl]
      exact ih
    · rw [labelsOf_cons_of_label hl, labelsOf_cons_of_label hl]
      exact ih.cons _
  | pass i next rest hi hnext ih =>
    have hl := Instruction.label_ne_of_isMarker hi
    rw [mergeMarkers_pass hi hnext, labelsOf_cons_of_label hl, labelsOf_cons_of_empty hnext]
    rwa [labelsOf_cons_of_label (by exact hl)] at ih
  | join i next rest hi hnext ih =>
    rw [mergeMarkers_join hi hnext, labelsOf_cons_of_label (Instruction.label_ne_of_isMarker hi)]
    exact List.perm_middle.trans (ih.cons _)

/-- Distinct labels stay distinct where markers are merged. -/
theorem labelsOf_mergeMarkers_nodup (hnodup : (labelsOf code).Nodup) :
    (labelsOf (mergeMarkers [] code).1).Nodup :=
  (List.nodup_append.mp ((mergeMarkers_labels code).nodup_iff.mpr hnodup)).1

/-- An alias stands for a label of the stream. -/
theorem mergeMarkers_alias_mem (code : List Instruction) :
    ∀ a ∈ (mergeMarkers [] code).2, a.2 ∈ labelsOf code := by
  induction code using merge_induction with
  | nil => exact List.forall_mem_nil _
  | single i => exact List.forall_mem_nil _
  | keep i next rest hi ih =>
    intro a ha
    rw [mergeMarkers_keep hi] at ha
    have := ih a ha
    rw [mem_labelsOf] at this ⊢
    exact ⟨this.1, this.2.imp fun j hj => ⟨List.mem_cons_of_mem _ hj.1, hj.2⟩⟩
  | pass i next rest hi hnext ih =>
    intro a ha
    rw [mergeMarkers_pass hi hnext] at ha
    have hl := Instruction.label_ne_of_isMarker hi
    have := ih a ha
    rw [labelsOf_cons_of_label (by exact hl)] at this
    rwa [labelsOf_cons_of_label hl, labelsOf_cons_of_empty hnext]
  | join i next rest hi hnext ih =>
    intro a ha
    rw [mergeMarkers_join hi hnext] at ha
    rw [labelsOf_cons_of_label (Instruction.label_ne_of_isMarker hi)]
    refine List.mem_cons_of_mem _ ?_
    rcases List.mem_cons.mp ha with rfl | ha
    · rw [labelsOf_cons_of_label hnext]
      exact List.mem_cons_self
    · exact ih a ha

/-- Where every marker has a label of its own, one in front of an instruction without a label
becomes no alias. -/
theorem mergeMarkers_alias_not {p : Bytes → Prop}
    (hown : ∀ x ∈ code, x.op = .noop → x.label ≠ [])
    (hchain : code.IsChain fun x y => x.op = .noop → p x.label → y.label = []) :
    ∀ a ∈ (mergeMarkers [] code).2, ¬p a.1 := by
  induction code using merge_induction with
  | nil => exact List.forall_mem_nil _
  | single i => exact List.forall_mem_nil _
  | keep i next rest hi ih =>
    rw [mergeMarkers_keep hi]
    exact ih (List.forall_mem_cons.mp hown).2 (List.isChain_cons_cons.mp hchain).2
  | pass i next rest hi hnext ih =>
    rw [mergeMarkers_pass hi hnext]
    obtain ⟨hnextOwn, hrest⟩ := List.forall_mem_cons.mp (List.forall_mem_cons.mp hown).2
    -- The instruction that takes the label over is no marker, so nothing is asked of it.
    have hop : next.op ≠ .noop := fun hop => hnextOwn hop hnext
    refine ih (List.forall_mem_cons.mpr ⟨fun h => absurd h hop, hrest⟩) ?_
    have htail := (List.isChain_cons_cons.mp hchain).2
    rw [List.isChain_cons] at htail ⊢
    exact ⟨fun y _ h => absurd h hop, htail.2⟩
  | join i next rest hi hnext ih =>
    rw [mergeMarkers_join hi hnext]
    obtain ⟨hfirst, hrest⟩ := List.isChain_cons_cons.mp hchain
    refine List.forall_mem_cons.mpr ⟨fun hp => ?_, ih (List.forall_mem_cons.mp hown).2 hrest⟩
    exact hnext (hfirst (Instruction.op_of_isMarker hi) hp)

/-! ## Places -/

/-- An instruction with a label marks or not whatever it inherits. -/
theorem survivors_of_label (h : i.label ≠ []) (rest : List Instruction) (b : Bool) :
    survivors b (i :: rest) = survivors false (i :: rest) := by
  have hmarks : i.marks b = i.marks false := by
    simp [Instruction.marks, List.isEmpty_eq_false_iff.mpr h]
  rw [survivors, survivors, hmarks]

/-- It is the same to inherit a label and to have it. -/
theorem survivors_relabel (h : next.label = []) (hl : l ≠ []) (rest : List Instruction) :
    survivors true (next :: rest) = survivors false ({ next with label := l } :: rest) := by
  have hmarks : next.marks true = Instruction.marks false { next with label := l } := by
    simp [Instruction.marks, h, hl]
  rw [survivors, survivors, hmarks]

/-- A marker does not survive. -/
theorem survivors_cons_of_marker (h : i.isMarker = true) (rest : List Instruction) :
    survivors false (i :: rest) = survivors true rest := by
  rw [survivors, Instruction.marks_of_marker h]
  rfl

/-- Other instructions survive. -/
theorem survivors_cons_of_not_marker (h : i.isMarker = false) (rest : List Instruction) :
    survivors false (i :: rest) = survivors false rest + 1 := by
  rw [survivors, Instruction.marks_of_not_marker h]
  rfl

/-- The place of an instruction when the markers in front of it are dropped; behind the code it is
the number of instructions that are left. -/
def markerPlace (code : List Instruction) (m : Nat) : Nat :=
  if m < code.length then survivors false (code.take m) else (mergeMarkers [] code).1.length

/-- The start of the code stays. -/
theorem markerPlace_zero (code : List Instruction) : markerPlace code 0 = 0 := by
  cases code <;> rfl

/-- The end of the code moves to the end. -/
theorem markerPlace_length (code : List Instruction) :
    markerPlace code code.length = (mergeMarkers [] code).1.length :=
  if_neg (Nat.lt_irrefl _)

/-- The place behind an instruction that marks nothing. -/
theorem markerPlace_keep (h : i.isMarker = false) (next : Instruction) (rest : List Instruction)
    (m : Nat) : markerPlace (i :: next :: rest) (m + 1) = markerPlace (next :: rest) m + 1 := by
  unfold markerPlace
  rw [List.length_cons, List.take_succ_cons, survivors_cons_of_not_marker h, mergeMarkers_keep h]
  split <;> rename_i hm
  · rw [if_pos (by omega)]
  · rw [if_neg (by omega)]
    rfl

/-- The place behind a marker whose label passes on. -/
theorem markerPlace_pass (h : i.isMarker = true) (hnext : next.label = []) (rest : List Instruction)
    (m : Nat) :
    markerPlace (i :: next :: rest) (m + 1) =
      markerPlace ({ next with label := i.label } :: rest) m := by
  unfold markerPlace
  rw [List.length_cons, List.length_cons, List.length_cons, List.take_succ_cons,
    survivors_cons_of_marker h, mergeMarkers_pass h hnext]
  split <;> rename_i hm
  · rw [if_pos (by omega)]
    cases m with
    | zero => rfl
    | succ m =>
      rw [List.take_succ_cons, survivors_relabel hnext (Instruction.label_ne_of_isMarker h)]
      rfl
  · rw [if_neg (by omega)]

/-- The place behind a marker whose label becomes an alias. -/
theorem markerPlace_join (h : i.isMarker = true) (hnext : next.label ≠ []) (rest : List Instruction)
    (m : Nat) : markerPlace (i :: next :: rest) (m + 1) = markerPlace (next :: rest) m := by
  unfold markerPlace
  rw [List.length_cons, List.take_succ_cons, survivors_cons_of_marker h, mergeMarkers_join h hnext]
  split <;> rename_i hm
  · rw [if_pos (by omega)]
    cases m with
    | zero => rfl
    | succ m => rw [List.take_succ_cons, survivors_of_label hnext]
  · rw [if_neg (by omega)]

/-! ## What is removed -/

/-- Whether linking labels removes the instruction at a place: one that does nothing, is not the
last, and has a label or inherits one from a removed instruction directly in front of it. -/
def removed (code : List Instruction) : Nat → Bool
  | 0 => 1 < code.length && code[0]?.any (Instruction.marks false)
  | m + 1 => m + 2 < code.length && code[m + 1]?.any (Instruction.marks (removed code m))

/-- The label of an instruction when markers are merged: its own, or else that of an instruction
directly in front of it that does nothing. -/
def mergedLabel (code : List Instruction) : Nat → Bytes
  | 0 => (code[0]?.map Instruction.label).getD []
  | m + 1 =>
    let own := (code[m + 1]?.map Instruction.label).getD []
    if !own.isEmpty then own
    else if code[m]?.any fun i => i.op == .noop then mergedLabel code m
    else []

/-- Only instructions that do nothing are removed, and never the last one. -/
theorem op_of_removed (hm : code[m]? = some x) (h : removed code m = true) :
    x.op = .noop ∧ m + 1 < code.length := by
  cases m <;> simp_all [removed, Instruction.marks]

/-- An instruction that does something is kept. -/
theorem removed_of_op (hm : code[m]? = some x) (hx : x.op ≠ .noop) : removed code m = false := by
  rw [← Bool.not_eq_true]
  exact fun h => hx (op_of_removed hm h).1

/-- A marker with a label of its own is removed unless it is the last instruction. -/
theorem removed_of_label (hm : code[m]? = some x) (hop : x.op = .noop) (hx : x.label ≠ [])
    (hlt : m + 1 < code.length) : removed code m = true := by
  cases m <;> simp_all [removed, Instruction.marks]

/-- The last instruction is kept. -/
theorem removed_last (h : m + 1 = code.length) : removed code m = false := by
  cases m <;> simp [removed, ← h]

/-- Behind its first instruction a stream is read like one that begins with `next'`. -/
structure Shifts (i next next' : Instruction) (rest : List Instruction) : Prop where
  marks : next.marks (i.marks false) = next'.marks false
  label : mergedLabel (i :: next :: rest) 1 = next'.label
  op : next.op = next'.op

section

variable {next' : Instruction} {rest : List Instruction}

/-- An instruction that marks nothing hands on nothing. -/
theorem Shifts.keep (hi : i.isMarker = false) : Shifts i next next rest where
  marks := by rw [Instruction.marks_of_not_marker hi]
  label := by
    unfold Instruction.isMarker at hi
    by_cases hop : i.op = .noop <;> by_cases hn : next.label = [] <;> simp_all [mergedLabel]
  op := rfl

/-- A label that passes on counts as the next instruction's own. -/
theorem Shifts.pass (hi : i.isMarker = true) (hnext : next.label = []) :
    Shifts i next { next with label := i.label } rest where
  marks := by
    rw [Instruction.marks_of_marker hi]
    simp [Instruction.marks, Instruction.label_ne_of_isMarker hi, hnext]
  label := by simp [mergedLabel, hnext, Instruction.op_of_isMarker hi]
  op := rfl

/-- An instruction with a label of its own takes over nothing. -/
theorem Shifts.join (hnext : next.label ≠ []) : Shifts i next next rest where
  marks := by simp [Instruction.marks, List.isEmpty_eq_false_iff.mpr hnext]
  label := by simp [mergedLabel, hnext]
  op := rfl

/-- A marker is removed unless it is the last instruction. -/
theorem removed_marker (hi : i.isMarker = true) : removed (i :: next :: rest) 0 = true := by
  simp [removed, Instruction.marks_of_marker hi]

/-- What is removed behind a merged marker. -/
theorem Shifts.removed_succ (h : Shifts i next next' rest) (m : Nat) :
    removed (i :: next :: rest) (m + 1) = removed (next' :: rest) m := by
  induction m with
  | zero =>
    have hfirst : removed (i :: next :: rest) 0 = i.marks false := by simp [removed]
    rw [removed, removed, hfirst]
    simp [h.marks]
  | succ m ih =>
    rw [removed, ih, removed]
    simp only [List.length_cons, List.getElem?_cons_succ]
    congr 2
    exact propext ⟨by omega, by omega⟩

/-- The labels behind a merged marker. -/
theorem Shifts.mergedLabel_succ (h : Shifts i next next' rest) (m : Nat) :
    mergedLabel (i :: next :: rest) (m + 1) = mergedLabel (next' :: rest) m := by
  induction m with
  | zero => exact h.label
  | succ m ih =>
    rw [mergedLabel, ih, mergedLabel]
    cases m <;> simp [h.op]

end

/-- Merging counts on exactly at the instructions that are not removed, and keeps those. -/
theorem mergeMarkers_kept (hm : code[m]? = some x) :
    markerPlace code (m + 1) = markerPlace code m + (if removed code m then 0 else 1) ∧
      (removed code m = false → (mergeMarkers [] code).1[markerPlace code m]? =
        some { x with label := mergedLabel code m }) := by
  induction code using merge_induction generalizing m x with
  | nil => cases hm
  | single i =>
    cases m with
    | zero =>
      cases hm
      refine ⟨rfl, fun _ => ?_⟩
      rw [mergeMarkers_single, Instruction.carrying_nil, markerPlace_zero]
      rfl
    | succ m => cases hm
  | keep i next rest hi ih =>
    rw [mergeMarkers_keep hi, markerPlace_keep hi]
    cases m with
    | zero =>
      cases hm
      have hkept : removed (i :: next :: rest) 0 = false := by
        simp [removed, Instruction.marks_of_not_marker hi]
      rw [hkept, markerPlace_zero, markerPlace_zero]
      exact ⟨rfl, fun _ => rfl⟩
    | succ m =>
      -- What is left begins one place later and is merged as it would be alone.
      have hshifts : Shifts i next next rest := .keep hi
      rw [markerPlace_keep hi, hshifts.removed_succ, hshifts.mergedLabel_succ]
      obtain ⟨hplace, hkept⟩ := ih hm
      exact ⟨by omega, hkept⟩
  | pass i next rest hi hnext ih =>
    rw [mergeMarkers_pass hi hnext, markerPlace_pass hi hnext]
    cases m with
    | zero =>
      rw [removed_marker hi, markerPlace_zero, markerPlace_zero]
      exact ⟨rfl, fun h => by cases h⟩
    | succ m =>
      -- What is left begins with `next`, which has taken over the label of `i`.
      have hshifts : Shifts i next { next with label := i.label } rest := .pass hi hnext
      rw [markerPlace_pass hi hnext, hshifts.removed_succ, hshifts.mergedLabel_succ]
      cases m with
      | zero =>
        cases hm
        exact ih (m := 0) (x := { next with label := i.label }) rfl
      | succ m => exact ih (m := m + 1) hm
  | join i next rest hi hnext ih =>
    rw [mergeMarkers_join hi hnext, markerPlace_join hi hnext]
    cases m with
    | zero =>
      rw [removed_marker hi, markerPlace_zero, markerPlace_zero]
      exact ⟨rfl, fun h => by cases h⟩
    | succ m =>
      have hshifts : Shifts i next next rest := .join hnext
      rw [markerPlace_join hi hnext, hshifts.removed_succ, hshifts.mergedLabel_succ]
      exact ih hm

/-- The place behind an instruction. -/
theorem markerPlace_succ (hm : m < code.length) :
    markerPlace code (m + 1) = markerPlace code m + (if removed code m then 0 else 1) :=
  (mergeMarkers_kept (List.getElem?_eq_getElem hm)).1

/-- What merging makes of an instruction that is kept. -/
theorem merged_at (hm : code[m]? = some x) (hkept : removed code m = false) :
    (mergeMarkers [] code).1[markerPlace code m]? =
      some { x with label := mergedLabel code m } :=
  (mergeMarkers_kept hm).2 hkept

/-- If every marker has a label and the last instruction does something, places count the
instructions that do something. -/
theorem markerPlace_eq_countP (hown : ∀ i ∈ code, i.op = .noop → i.label ≠ [])
    (hlast : ∀ x ∈ code.getLast?, x.op ≠ .noop) (hm : m ≤ code.length) :
    markerPlace code m = (code.take m).countP fun i => i.op != .noop := by
  induction m with
  | zero => exact markerPlace_zero code
  | succ m ih =>
    have hget := List.getElem?_eq_getElem hm
    rw [markerPlace_succ hm, ih (Nat.le_of_succ_le hm), List.take_add_one, hget,
      List.countP_append]
    by_cases hop : code[m].op = .noop
    · -- It is not the last instruction, so it is removed.
      have hlt : m + 1 < code.length := by
        refine Nat.lt_of_le_of_ne hm fun he => hlast code[m] ?_ hop
        rw [List.getLast?_eq_getElem?, ← he]
        exact hget
      rw [removed_of_label hget hop (hown _ (List.getElem_mem hm) hop) hlt]
      simp [hop]
    · rw [removed_of_op hget hop]
      simp [hop]

/-- What merging leaves are the instructions of code, up to their labels. -/
theorem mergeMarkers_mem (code : List Instruction) :
    ∀ o ∈ (mergeMarkers [] code).1, ∃ x ∈ code, x.op = o.op ∧ x.target = o.target := by
  induction code using merge_induction with
  | nil => exact List.forall_mem_nil _
  | single i =>
    rw [mergeMarkers_single, Instruction.carrying_nil]
    exact fun o ho => ⟨o, ho, rfl, rfl⟩
  | keep i next rest hi ih =>
    rw [mergeMarkers_keep hi]
    refine List.forall_mem_cons.mpr ⟨⟨i, List.mem_cons_self, rfl, rfl⟩, fun o ho => ?_⟩
    obtain ⟨x, hx, hsame⟩ := ih o ho
    exact ⟨x, List.mem_cons_of_mem _ hx, hsame⟩
  | pass i next rest hi hnext ih =>
    rw [mergeMarkers_pass hi hnext]
    intro o ho
    obtain ⟨x, hx, hsame⟩ := ih o ho
    rcases List.mem_cons.mp hx with rfl | hx
    · exact ⟨next, List.mem_cons_of_mem _ List.mem_cons_self, hsame⟩
    · exact ⟨x, List.mem_cons_of_mem _ (List.mem_cons_of_mem _ hx), hsame⟩
  | join i next rest hi hnext ih =>
    rw [mergeMarkers_join hi hnext]
    intro o ho
    obtain ⟨x, hx, hsame⟩ := ih o ho
    exact ⟨x, List.mem_cons_of_mem _ hx, hsame⟩

/-- Merging keeps the instructions of other kinds than markers, up to their labels. -/
theorem filter_mergeMarkers {kind : Opcode → Bool} (hkind : kind .noop = false)
    {f : Instruction → β} (hf : ∀ i l, f { i with label := l } = f i) (code : List Instruction) :
    ((mergeMarkers [] code).1.filter fun i => kind i.op).map f =
      (code.filter fun i => kind i.op).map f := by
  have hmarker {i : Instruction} (hi : i.isMarker = true) (rest : List Instruction) :
      ((i :: rest).filter fun i => kind i.op) = rest.filter fun i => kind i.op := by
    have hop := Instruction.op_of_isMarker hi
    simp [hop, hkind]
  induction code using merge_induction with
  | nil => rfl
  | single i => rw [mergeMarkers_single, Instruction.carrying_nil]
  | keep i next rest hi ih =>
    rw [mergeMarkers_keep hi, List.filter_cons, List.filter_cons]
    split
    · rw [List.map_cons, List.map_cons, ih]
    · exact ih
  | pass i next rest hi hnext ih =>
    rw [mergeMarkers_pass hi hnext, ih, hmarker hi, List.filter_cons, List.filter_cons]
    split
    · rw [List.map_cons, List.map_cons, hf]
    · rfl
  | join i next rest hi hnext ih => rw [mergeMarkers_join hi hnext, ih, hmarker hi]

end StackScript
