import StackScript.Proofs.Generate.Emission
import StackScript.Proofs.Link.Calls
import StackScript.Proofs.Link.Labels

/-!
# Linking generated streams

A generated stream is well marked: its markers are exactly the instructions with labels, no return
follows another, the label of a function stands directly in front of its frame, and the labels of
all other places are distinct. For such a stream every instruction has a place in the linked code
that is the sum of what stands before it (`linkedPlace`). `Linked` says what linking does in terms
of these places, and that is all that is used of it from here on.
-/

namespace StackScript

variable {i : Instruction} {code post pre : List Instruction} {symbols : Symbols}

/-- Whether a label is the one of a function. -/
def isFunctionLabel (l : Bytes) : Bool := l.head? == some 60

/-- A stream as it is generated. -/
structure WellMarked (code : List Instruction) : Prop where
  /-- The markers are exactly the instructions with labels. -/
  marks : ∀ i ∈ code, i.op = .noop ↔ i.label ≠ []
  /-- No return follows another. -/
  returns : code.IsChain fun x y => x.op = .ret → y.op ≠ .ret
  /-- The label of a function stands in front of an instruction without a label. -/
  entries : code.IsChain fun x y => isFunctionLabel x.label = true → y.label = []
  /-- All other labels are distinct. -/
  once : ((labelsOf code).filter fun l => !isFunctionLabel l).Nodup
  /-- The last instruction does something. -/
  last : ∀ i ∈ code.getLast?, i.op ≠ .noop

/-- The number of linked instructions of code: the place of what follows it. -/
def linkedPlace (symbols : Symbols) (code : List Instruction) : Nat :=
  (code.flatMap (expansion symbols)).countP fun i => i.op != .noop

/-- No code takes no place. -/
theorem linkedPlace_nil (symbols : Symbols) : linkedPlace symbols [] = 0 := rfl

/-- Code takes the places of its pieces. -/
theorem linkedPlace_append (symbols : Symbols) (a b : List Instruction) :
    linkedPlace symbols (a ++ b) = linkedPlace symbols a + linkedPlace symbols b := by
  unfold linkedPlace
  rw [List.flatMap_append, List.countP_append]

/-- Labels that all get a place are distinct, also those of functions. -/
theorem labels_nodup_of_places {places : List (Bytes × Nat)}
    (hplaces : labelPlaces [] 0 (mergeMarkers [] code).1 = .ok places)
    (hown : ∀ i ∈ code, i.op = .noop → i.label ≠ [])
    (hentries : code.IsChain fun x y => x.op = .noop → isFunctionLabel x.label = true →
      y.label = []) (honce : ((labelsOf code).filter fun l => !isFunctionLabel l).Nodup) :
    (labelsOf code).Nodup := by
  have hkeys := mergeMarkers_alias_not (p := fun l => isFunctionLabel l = true) hown hentries
  rw [List.nodup_iff_count]
  intro l
  cases hl : isFunctionLabel l with
  | true =>
    -- The label of a function becomes no alias, so linking has checked it.
    have hnot : l ∉ (mergeMarkers [] code).2.map Prod.fst := by
      intro hmem
      obtain ⟨a, ha, rfl⟩ := List.mem_map.mp hmem
      exact hkeys a ha hl
    rw [← (mergeMarkers_labels code).count_eq, List.count_append, List.count_eq_zero.mpr hnot,
      Nat.add_zero]
    exact List.nodup_iff_count.mp (labelPlaces_eq_ok hplaces).1 l
  | false =>
    rw [← List.count_filter (p := fun l => !isFunctionLabel l) (by simp [hl])]
    exact List.nodup_iff_count.mp honce l

/-- The instructions of a call without a label do something and have no labels. -/
theorem linkCall_unlabelled {here : List Instruction} (h : linkCall symbols i = .ok here)
    (hop : i.op = .call) (hl : i.label = []) :
    here ≠ [] ∧ ∀ j ∈ here, j.op ≠ .noop ∧ j.label = [] := by
  obtain ⟨f, -, -, -, ⟨-, rfl⟩ | ⟨-, -, rfl⟩⟩ := linkCall_eq_ok h
  · refine ⟨by simp, fun j hj => ?_⟩
    obtain rfl := List.mem_singleton.mp hj
    exact ⟨nofun, hl⟩
  · refine ⟨by simp, fun j hj => ?_⟩
    rcases List.mem_append.mp hj with hj | hj
    · rw [List.eq_of_mem_replicate hj]
      exact ⟨nofun, rfl⟩
    · obtain rfl := List.mem_singleton.mp hj
      exact ⟨by simp [hop], hl⟩

section Expand

variable {symbols : Symbols} {code : List Instruction}
  (hmarks : ∀ i ∈ code, i.op = .noop ↔ i.label ≠ [])
  (hcalls : ∀ i ∈ code, i.op = .call → ∃ here, linkCall symbols i = .ok here)
include hmarks hcalls

/-- An instruction is expanded to itself or to instructions that do something and have no labels. -/
theorem expansion_cases (hi : i ∈ code) :
    expansion symbols i = [i] ∨ i.label = [] ∧ expansion symbols i ≠ [] ∧
      ∀ j ∈ expansion symbols i, j.op ≠ .noop ∧ j.label = [] := by
  by_cases hop : i.op = .call
  · obtain ⟨here, hhere⟩ := hcalls i hi hop
    have hl : i.label = [] := by
      by_cases hl : i.label = []
      · exact hl
      · have := (hmarks i hi).mpr hl
        rw [hop] at this
        cases this
    rw [expansion_of_call hop hhere]
    exact .inr ⟨hl, linkCall_unlabelled hhere hop hl⟩
  · exact .inl (expansion_of_not_call hop symbols)

/-- Expanding calls keeps the markers. -/
theorem expand_marks :
    ∀ j ∈ code.flatMap (expansion symbols), j.op = .noop → j.label ≠ [] := by
  intro j hj
  obtain ⟨i, hi, hj⟩ := List.mem_flatMap.mp hj
  rcases expansion_cases hmarks hcalls hi with h | ⟨-, -, h⟩
  · rw [h] at hj
    obtain rfl := List.mem_singleton.mp hj
    exact (hmarks j hi).mp
  · exact fun hop => absurd hop (h j hj).1

/-- Expanding calls keeps the labels. -/
theorem expand_labels : labelsOf (code.flatMap (expansion symbols)) = labelsOf code := by
  induction code with
  | nil => rfl
  | cons i rest ih =>
    have ih := ih (fun j hj => hmarks j (List.mem_cons_of_mem _ hj))
      (fun j hj => hcalls j (List.mem_cons_of_mem _ hj))
    rw [List.flatMap_cons, labelsOf_append, ih]
    rcases expansion_cases hmarks hcalls List.mem_cons_self with h | ⟨hl, -, h⟩
    · rw [h, ← labelsOf_append]
      rfl
    · have hnone : labelsOf (expansion symbols i) = [] := by
        rw [List.eq_nil_iff_forall_not_mem]
        intro l hmem
        obtain ⟨hne, j, hj, rfl⟩ := mem_labelsOf.mp hmem
        exact hne (h j hj).2
      rw [hnone, labelsOf_cons_of_empty hl, List.nil_append]

/-- Expanding calls keeps what stands behind the label of a function. -/
theorem expand_entries
    (hentries : code.IsChain fun x y => isFunctionLabel x.label = true → y.label = []) :
    (code.flatMap (expansion symbols)).IsChain fun x y => x.op = .noop →
      isFunctionLabel x.label = true → y.label = [] := by
  induction code with
  | nil => exact .nil
  | cons i rest ih =>
    have hcases {j : Instruction} (hj : j ∈ i :: rest) := expansion_cases hmarks hcalls hj
    rw [List.isChain_cons] at hentries
    have ih := ih (fun j hj => hmarks j (List.mem_cons_of_mem _ hj))
      (fun j hj => hcalls j (List.mem_cons_of_mem _ hj)) hentries.2
    rw [List.flatMap_cons, List.isChain_append]
    rcases hcases List.mem_cons_self with h | ⟨-, -, h⟩
    · refine ⟨by rw [h]; exact .singleton _, ih, fun x hx y hy hop hlabel => ?_⟩
      rw [h] at hx
      obtain rfl : i = x := by simpa using hx
      -- The instruction behind is the first of an expansion.
      cases rest with
      | nil => cases hy
      | cons j rest =>
        have hj := hentries.1 j rfl hlabel
        rw [List.flatMap_cons] at hy
        rcases hcases (List.mem_cons_of_mem _ List.mem_cons_self) with h | ⟨-, hne, h⟩
        · rw [h] at hy
          obtain rfl : j = y := by simpa using hy
          exact hj
        · rw [List.head?_append_of_ne_nil _ hne] at hy
          exact (h y (List.mem_of_mem_head? hy)).2
    · refine ⟨?_, ih, fun x hx y _ hop => absurd hop (h x (List.mem_of_mem_getLast? hx)).1⟩
      rw [List.isChain_iff_getElem]
      intro k hk hop
      exact absurd hop (h _ (List.getElem_mem _)).1

/-- Expanding calls keeps that the last instruction does something. -/
theorem expand_last (hlast : ∀ i ∈ code.getLast?, i.op ≠ .noop) :
    ∀ x ∈ (code.flatMap (expansion symbols)).getLast?, x.op ≠ .noop := by
  intro x hx
  rcases List.eq_nil_or_concat code with rfl | ⟨pre, i, rfl⟩
  · cases hx
  · rw [List.concat_eq_append] at hx hlast hmarks hcalls
    rw [List.flatMap_append, List.flatMap_singleton] at hx
    have hmem : i ∈ pre ++ [i] := List.mem_append_right pre List.mem_cons_self
    rcases expansion_cases hmarks hcalls hmem with h | ⟨-, hne, h⟩
    · rw [h] at hx
      obtain rfl : i = x := by simpa using hx
      exact hlast i (by simp)
    · rw [List.getLast?_append_of_ne_nil _ hne] at hx
      exact (h x (List.mem_of_mem_getLast? hx)).1

end Expand

/-- The instruction at a place of linked code has an operation and an operand. -/
def InstructionAt (linked : Array Instruction) (place : Nat) (op : Opcode) (n : Nat) : Prop :=
  ∃ i, linked[place]? = some i ∧ i.op = op ∧ i.operand = UInt64.ofNat n

section Link

variable {symbols : Symbols} {code : List Instruction} (hmarked : WellMarked code)
  {expanded out : List Instruction} (hcalls : linkCalls symbols code = .ok expanded)
  (hlabels : linkLabels expanded = .ok out)
include hmarked hcalls hlabels

/-- The labels of a generated stream that can be linked are distinct. -/
theorem WellMarked.labels_nodup : (labelsOf code).Nodup := by
  obtain ⟨rfl, hlinked⟩ := linkCalls_eq_ok hcalls hmarked.returns
  obtain ⟨places, hplaces, -⟩ := linkLabels_eq_ok hlabels
  rw [← expand_labels hmarked.marks hlinked]
  refine labels_nodup_of_places hplaces (expand_marks hmarked.marks hlinked)
    (expand_entries hmarked.marks hlinked hmarked.entries) ?_
  rw [expand_labels hmarked.marks hlinked]
  exact hmarked.once

/-- Where an instruction of an expansion stands in the linked code, and where it goes if it is a
jump or a call. -/
theorem WellMarked.linked_at (hcode : code = pre ++ i :: post)
    (hexpansion : ∀ x ∈ expansion symbols i, x.op ≠ .noop) {j : Nat} {x : Instruction}
    (hx : (expansion symbols i)[j]? = some x) :
    ∃ o, out[linkedPlace symbols pre + j]? = some o ∧ o.op = x.op ∧
      (x.op.isJump = false → o.operand = x.operand) ∧
      (x.op.isJump = true → ∀ pre' y post', code = pre' ++ y :: post' → y.label ≠ [] →
        y.label = x.target → o.operand = UInt64.ofNat (linkedPlace symbols pre')) := by
  have hnodup := hmarked.labels_nodup hcalls hlabels
  obtain ⟨rfl, hlinked⟩ := linkCalls_eq_ok hcalls hmarked.returns
  have hown := expand_marks hmarked.marks hlinked
  rw [← expand_labels hmarked.marks hlinked] at hnodup
  have hsplit : code.flatMap (expansion symbols) = pre.flatMap (expansion symbols) ++
      (expansion symbols i ++ post.flatMap (expansion symbols)) := by
    rw [hcode, List.flatMap_append, List.flatMap_cons]
  obtain ⟨hj, -⟩ := List.getElem?_eq_some_iff.mp hx
  have hget : (code.flatMap (expansion symbols))[(pre.flatMap (expansion symbols)).length + j]? =
      some x := by
    rw [hsplit, List.getElem?_append_right (Nat.le_add_right _ _), Nat.add_sub_cancel_left,
      List.getElem?_append_left hj, hx]
  -- Places in the expanded stream count the instructions that do something.
  have hplace {n : Nat} (hn : n ≤ (code.flatMap (expansion symbols)).length) :=
    markerPlace_eq_countP hown (expand_last hmarked.marks hlinked hmarked.last) hn
  have hhere : markerPlace (code.flatMap (expansion symbols))
      ((pre.flatMap (expansion symbols)).length + j) = linkedPlace symbols pre + j := by
    have hall : ((expansion symbols i).take j).countP (fun i => i.op != .noop) = j := by
      rw [List.countP_eq_length.mpr
          (fun y hy => by simpa using hexpansion y (List.mem_of_mem_take hy)),
        List.length_take]
      omega
    rw [hplace (Nat.le_of_lt (List.getElem?_eq_some_iff.mp hget).1), hsplit,
      List.take_length_add_append, List.countP_append, List.take_append_of_le_length (by omega),
      hall]
    rfl
  obtain ⟨o, ho, hop, hoperand, htarget⟩ := linkLabels_place hlabels hnodup hget
    (hexpansion x (List.mem_of_getElem? hx))
  rw [hhere] at ho
  refine ⟨o, ho, hop, hoperand, fun hjump pre' y post' hcode' hy hlabel => ?_⟩
  -- The target is a marker, which is expanded to itself, so its place is that of its split.
  have hyop : y.op = .noop := (hmarked.marks y (by simp [hcode'])).mpr hy
  have hyexpansion : expansion symbols y = [y] := expansion_of_not_call (by simp [hyop]) symbols
  have hsplit' : code.flatMap (expansion symbols) = pre'.flatMap (expansion symbols) ++
      (y :: post'.flatMap (expansion symbols)) := by
    rw [hcode', List.flatMap_append, List.flatMap_cons, hyexpansion]
    rfl
  have hget' : (code.flatMap (expansion symbols))[(pre'.flatMap (expansion symbols)).length]? =
      some y := by simp [hsplit']
  rw [(htarget hjump _ y hget' hy hlabel).1,
    hplace (Nat.le_of_lt (List.getElem?_eq_some_iff.mp hget').1), hsplit', List.take_left]
  rfl

/-- Where an instruction other than a call stands, and where it goes if it is a jump. -/
theorem WellMarked.linked_single (hcode : code = pre ++ i :: post) (hnoop : i.op ≠ .noop)
    (hcall : i.op ≠ .call) :
    ∃ o, out[linkedPlace symbols pre]? = some o ∧ o.op = i.op ∧
      (i.op.isJump = false → o.operand = i.operand) ∧
      (i.op.isJump = true → ∀ pre' y post', code = pre' ++ y :: post' → y.label ≠ [] →
        y.label = i.target → o.operand = UInt64.ofNat (linkedPlace symbols pre')) := by
  have hexpansion := expansion_of_not_call hcall symbols
  refine hmarked.linked_at hcalls hlabels (j := 0) hcode ?_ (by rw [hexpansion]; rfl)
  intro x hx
  rw [hexpansion] at hx
  rwa [List.mem_singleton.mp hx]

/-- Linked code has the instructions that the places count. -/
theorem WellMarked.linked_length : out.length = linkedPlace symbols code := by
  obtain ⟨rfl, hlinked⟩ := linkCalls_eq_ok hcalls hmarked.returns
  rw [← linkLabels_end hlabels (List.getElem?_eq_none (Nat.le_refl _)),
    markerPlace_eq_countP (expand_marks hmarked.marks hlinked)
      (expand_last hmarked.marks hlinked hmarked.last) (Nat.le_refl _), List.take_length]
  rfl

end Link

/-- How linked code arises from a generated stream. -/
structure Linked (symbols : Symbols) (code : List Instruction) (linked : Array Instruction) :
    Prop where
  /-- The places count the linked instructions. -/
  size : linked.size = linkedPlace symbols code
  /-- An instruction other than a jump or a call stays. -/
  plain : ∀ {pre post op n}, code = pre ++ Instruction.on op n :: post → op ≠ .noop →
    op.isJump = false → InstructionAt linked (linkedPlace symbols pre) op n
  /-- A jump gets the place of its label. -/
  jump : ∀ {pre post op l pre' post'}, code = pre ++ Instruction.jumpTo op l :: post → op ≠ .call →
    op.isJump = true → code = pre' ++ Instruction.marker l :: post' → l ≠ [] →
    InstructionAt linked (linkedPlace symbols pre) op (linkedPlace symbols pre')
  /-- A call becomes a host call, or pushes what is missing and gets the place of its function. -/
  call : ∀ {pre post name k}, code = pre ++ Instruction.callOf name k :: post →
    ∃ f, symbols.function? name = some f ∧ f.minimum ≤ k ∧ k ≤ HostCall.maxArguments ∧
      (f.isHost = true ∧ linkedPlace symbols [Instruction.callOf name k] = 1 ∧
          InstructionAt linked (linkedPlace symbols pre) .callHost
            (HostCall.pack k f.dispatch).toNat ∨
        f.isHost = false ∧ k ≤ f.declared ∧
          linkedPlace symbols [Instruction.callOf name k] = (f.declared - k).toNat + 1 ∧
          (∀ j < (f.declared - k).toNat,
            InstructionAt linked (linkedPlace symbols pre + j) .constant Pool.falseIndex) ∧
          ∀ {pre' y post'}, code = pre' ++ y :: post' → y.label = functionLabel name →
            InstructionAt linked (linkedPlace symbols pre + (f.declared - k).toNat) .call
              (linkedPlace symbols pre'))

/-- Linking a generated stream gives linked code. -/
theorem WellMarked.linked {expanded out : List Instruction} (hmarked : WellMarked code)
    (hcalls : linkCalls symbols code = .ok expanded) (hlabels : linkLabels expanded = .ok out) :
    Linked symbols code out.toArray where
  size := hmarked.linked_length hcalls hlabels
  plain := by
    intro pre post op n hcode hnoop hjump
    have hcall : op ≠ .call := by
      rintro rfl
      cases hjump
    obtain ⟨o, ho, hop, hoperand, -⟩ := hmarked.linked_single hcalls hlabels hcode hnoop hcall
    exact ⟨o, by simpa using ho, hop, hoperand hjump⟩
  jump := by
    intro pre post op l pre' post' hcode hcall hjump hcode' hl
    have hnoop : op ≠ .noop := by
      rintro rfl
      cases hjump
    obtain ⟨o, ho, hop, -, htarget⟩ := hmarked.linked_single hcalls hlabels hcode hnoop hcall
    exact ⟨o, by simpa using ho, hop, htarget hjump _ _ _ hcode' hl rfl⟩
  call := by
    intro pre post name k hcode
    obtain ⟨here, hhere⟩ := (linkCalls_eq_ok hcalls hmarked.returns).2
      (Instruction.callOf name k) (by simp [hcode]) rfl
    have hexpansion := expansion_of_call rfl hhere
    have hnoop := (linkCall_unlabelled hhere rfl rfl).2
    have hlength : linkedPlace symbols [Instruction.callOf name k] = here.length := by
      unfold linkedPlace
      rw [List.flatMap_singleton, hexpansion, List.countP_eq_length]
      exact fun j hj => by simpa using (hnoop j hj).1
    have hat {j : Nat} {x : Instruction} (hx : here[j]? = some x) :=
      hmarked.linked_at hcalls hlabels hcode (by rw [hexpansion]; exact fun x hx => (hnoop x hx).1)
        (hexpansion ▸ hx)
    obtain ⟨f, hf, hminimum, hmaximum, hkind⟩ := linkCall_eq_ok hhere
    have hargc : (Instruction.callOf name k).argc = k := rfl
    rw [hargc] at hminimum hmaximum hkind
    -- A host call is one instruction; another one stands behind what is pushed for it.
    rcases hkind with ⟨hhost, rfl⟩ | ⟨huser, hdeclared, rfl⟩
    · refine ⟨f, hf, hminimum, by exact_mod_cast hmaximum, .inl ⟨hhost, hlength, ?_⟩⟩
      obtain ⟨o, ho, hop, hoperand, -⟩ := hat (j := 0) rfl
      exact ⟨o, by simpa using ho, hop, by rw [UInt64.ofNat_toNat]; exact hoperand rfl⟩
    · refine ⟨f, hf, hminimum, by exact_mod_cast hmaximum, .inr ⟨huser, hdeclared, ?_, ?_, ?_⟩⟩
      · rw [hlength, List.length_append, List.length_replicate]
        rfl
      · intro j hj
        obtain ⟨o, ho, hop, hoperand, -⟩ := hat (j := j) (x := loadFalse) (by
          rw [List.getElem?_append_left (by rwa [List.length_replicate]), List.getElem?_replicate,
            if_pos hj])
        exact ⟨o, by simpa using ho, hop, hoperand rfl⟩
      · intro pre' y post' hcode' hy
        obtain ⟨o, ho, hop, -, htarget⟩ := hat (j := (f.declared - k).toNat) (by
          rw [List.getElem?_append_right (by rw [List.length_replicate]), List.length_replicate,
            Nat.sub_self]
          rfl)
        exact ⟨o, by simpa using ho, hop, htarget rfl _ _ _ hcode' (hy ▸ nofun) hy⟩

end StackScript
