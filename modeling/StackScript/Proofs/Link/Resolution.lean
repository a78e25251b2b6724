import StackScript.Proofs.Link.Places
import StackScript.Proofs.Link.Progress

/-!
# What linking labels leaves

The place of an instruction in the linked code is the number of instructions kept in front of it.
If labels are distinct this gives the meaning of linking: it fails for the first jump to a label
that no instruction has, and otherwise every jump goes to the first instruction that is kept from
the one with its label on.
-/

namespace StackScript

/-- The places of the instructions that are kept, in order. -/
def keptPlaces (code : List Instruction) : List Nat :=
  (List.range code.length).filter fun m => !removed code m

/-- The first place from `k` on whose instruction is kept. -/
structure FirstKept (code : List Instruction) (k m : Nat) : Prop where
  le : k ≤ m
  lt : m < code.length
  kept : removed code m = false
  between : ∀ j, k ≤ j → j < m → removed code j = true

/-- What linking makes of an instruction that is kept: it stays as it is but for its label and, if
it is a jump or a call, for its operand and its target. The operand becomes the position in the
linked code of the first instruction that is kept from the target on. -/
structure Instruction.Resolved (code : List Instruction) (x o : Instruction) : Prop where
  op : o.op = x.op
  callee : o.callee = x.callee
  argc : o.argc = x.argc
  other : x.op.isJump = false → o.operand = x.operand ∧ o.target = x.target
  jump : x.op.isJump = true → ∀ k y, code[k]? = some y → y.label = x.target →
    ∃ n q, FirstKept code k n ∧ (keptPlaces code)[q]? = some n ∧ o.operand = UInt64.ofNat q

/-- What linking makes of the instruction at a place that is kept. -/
def ResolvedAt (code : List Instruction) (m : Nat) (o : Instruction) : Prop :=
  ∃ x, code[m]? = some x ∧ Instruction.Resolved code x o

/-- The labels that the jumps and calls of code go to. -/
def targetsOf (code : List Instruction) : List Bytes :=
  (code.filter fun i => i.op.isJump).map Instruction.target

/-! ## What is kept -/

section

variable {code : List Instruction} {k m n q : Nat}

/-- The place of an instruction in the linked code is the number of those kept in front of it. -/
theorem markerPlace_eq_length (hm : m ≤ code.length) :
    markerPlace code m = ((List.range m).filter fun j => !removed code j).length := by
  induction m with
  | zero => exact markerPlace_zero code
  | succ m ih =>
    rw [markerPlace_succ hm, ih (Nat.le_of_succ_le hm), List.range_succ, List.filter_append,
      List.length_append]
    cases h : removed code m <;> simp [h]

/-- As many places are kept as instructions remain. -/
theorem length_keptPlaces (code : List Instruction) :
    (keptPlaces code).length = markerPlace code code.length :=
  (markerPlace_eq_length (Nat.le_refl _)).symm

/-- An instruction that is kept is among those kept at its place in the linked code. -/
theorem keptPlaces_markerPlace (hm : m < code.length) (hkept : removed code m = false) :
    (keptPlaces code)[markerPlace code m]? = some m := by
  obtain ⟨d, hd⟩ := Nat.exists_eq_add_of_lt hm
  have hsplit : List.range code.length = List.range m ++ m :: (List.range d).map (m + 1 + ·) := by
    rw [hd, Nat.add_right_comm, List.range_add, List.range_succ, List.append_assoc]
    rfl
  rw [keptPlaces, hsplit, List.filter_append, List.filter_cons_of_pos (by simp [hkept]),
    markerPlace_eq_length (Nat.le_of_lt hm), List.getElem?_append_right (Nat.le_refl _),
    Nat.sub_self]
  rfl

/-- The instructions that are kept are at their places in the linked code. -/
theorem keptPlaces_eq_some (h : (keptPlaces code)[q]? = some m) :
    m < code.length ∧ removed code m = false ∧ q = markerPlace code m := by
  have hmem := List.mem_of_getElem? h
  rw [keptPlaces, List.mem_filter, List.mem_range] at hmem
  obtain ⟨hm, hkept⟩ := hmem
  have hkept : removed code m = false := by simpa using hkept
  refine ⟨hm, hkept, ?_⟩
  have hnodup : (keptPlaces code).Nodup := List.nodup_range.filter _
  exact (List.getElem?_inj (List.getElem?_eq_some_iff.mp h).1 hnodup).mp
    (h.trans (keptPlaces_markerPlace hm hkept).symm)

/-- From every place on some instruction is kept. -/
theorem exists_firstKept (hk : k < code.length) : ∃ m, FirstKept code k m := by
  obtain ⟨d, hd⟩ := Nat.exists_eq_add_of_lt hk
  induction d generalizing k with
  | zero =>
    exact ⟨k, Nat.le_refl k, hk, removed_last hd.symm, fun j hj hj' => by omega⟩
  | succ d ih =>
    cases hremoved : removed code k with
    | false => exact ⟨k, Nat.le_refl k, hk, hremoved, fun j hj hj' => by omega⟩
    | true =>
      obtain ⟨m, hm⟩ := ih (k := k + 1) (by omega) (by omega)
      refine ⟨m, Nat.le_of_succ_le hm.le, hm.lt, hm.kept, fun j hj hj' => ?_⟩
      rcases Nat.eq_or_lt_of_le hj with rfl | hj
      · exact hremoved
      · exact hm.between j hj hj'

/-- Nothing is counted up to the first instruction that is kept. -/
theorem FirstKept.markerPlace_eq (h : FirstKept code k m) :
    markerPlace code m = markerPlace code k := by
  obtain ⟨hle, hlt, -, hbetween⟩ := h
  induction m, hle using Nat.le_induction with
  | base => rfl
  | succ m hle ih =>
    rw [markerPlace_succ (Nat.lt_of_succ_lt hlt), hbetween m hle (Nat.lt_succ_self m),
      ih (Nat.lt_of_succ_lt hlt) fun j hj hj' => hbetween j hj (Nat.lt_succ_of_lt hj')]
    rfl

end

/-! ## The jumps -/

/-- The target of a jump comes first. -/
theorem targetsOf_cons_of_jump {i : Instruction} (h : i.op.isJump = true)
    (code : List Instruction) : targetsOf (i :: code) = i.target :: targetsOf code := by
  simp [targetsOf, h]

/-- Other instructions have no target. -/
theorem targetsOf_cons_of_not_jump {i : Instruction} (h : i.op.isJump = false)
    (code : List Instruction) : targetsOf (i :: code) = targetsOf code := by
  simp [targetsOf, h]

/-- Merging keeps the jumps and calls. -/
theorem targetsOf_mergeMarkers (code : List Instruction) :
    targetsOf (mergeMarkers [] code).1 = targetsOf code :=
  filter_mergeMarkers rfl (fun _ _ => rfl) code

/-- Resolving a jump changes only its operand and its target, and nothing else is changed. -/
theorem resolveJump_keeps {aliases : List (Bytes × Bytes)} {places : List (Bytes × Nat)}
    {i o : Instruction} (h : resolveJump aliases places i = .ok o) :
    o.callee = i.callee ∧ o.argc = i.argc ∧ (i.op.isJump = false → o = i) := by
  rcases resolveJump_cases h with ⟨-, rfl⟩ | ⟨hjump, l, place, -, -, rfl⟩
  · exact ⟨rfl, rfl, fun _ => rfl⟩
  · exact ⟨rfl, rfl, fun hno => absurd (hno.symm.trans hjump) (by decide)⟩

/-- Going through code fails for the first jump or call that fails, if whether one fails depends on
its target and nothing else fails. -/
theorem mapM_jumps_error_iff {f : Instruction → Except LinkError Instruction}
    (fault : Bytes → Option LinkError) (hother : ∀ o, o.op.isJump = false → f o = .ok o)
    (hjump : ∀ o, o.op.isJump = true → ∀ e, f o = .error e ↔ fault o.target = some e)
    (code : List Instruction) (e : LinkError) :
    code.mapM f = .error e ↔ (targetsOf code).findSome? fault = some e := by
  induction code with
  | nil =>
    refine ⟨fun h => ?_, fun h => ?_⟩ <;> cases h
  | cons i rest ih =>
    rw [List.mapM_cons]
    -- An instruction that does not fail leaves the fault to the rest.
    have hskip {o : Instruction} (ho : f i = .ok o) :
        (f i >>= fun o => rest.mapM f >>= fun os => pure (o :: os)) = .error e ↔
          rest.mapM f = .error e := by
      rw [ho]
      cases rest.mapM f <;> simp [bind, Except.bind, pure, Except.pure]
    cases hi : i.op.isJump with
    | false => rw [hskip (hother i hi), targetsOf_cons_of_not_jump hi, ih]
    | true =>
      rw [targetsOf_cons_of_jump hi, List.findSome?_cons]
      cases hf : f i with
      | ok o =>
        have hnone : fault i.target = none := by
          rw [Option.eq_none_iff_forall_ne_some]
          intro e' he'
          rw [← hjump i hi, hf] at he'
          cases he'
        rw [hnone, ← hf, hskip hf, ih]
      | error e' =>
        rw [(hjump i hi e').mp hf]
        change Except.error e' = Except.error e ↔ some e' = some e
        rw [Except.error.injEq, Option.some.injEq]

section

variable {code : List Instruction} (hnodup : (labelsOf code).Nodup)
include hnodup

/-- Where labels are distinct, linking fails for the first jump or call to a label that no
instruction has, and for nothing else. -/
theorem linkLabels_error_iff {e : LinkError} :
    linkLabels code = .error e ↔
      ∃ before l after, targetsOf code = before ++ l :: after ∧
        (∀ t ∈ before, t ∈ labelsOf code) ∧ l ∉ labelsOf code ∧ e = .undefinedLabel l := by
  -- Distinct labels all have places, so only the targets can fail.
  obtain ⟨places, hplaces⟩ := exists_labelPlaces (labelsOf_mergeMarkers_nodup hnodup)
  rw [linkLabels_of_places hplaces, mapM_jumps_error_iff
    (fun l => if l ∈ labelsOf code then none else some (.undefinedLabel l))
    (fun _ => resolveJump_of_not_jump) ?jump, targetsOf_mergeMarkers, List.findSome?_eq_some_iff]
  case jump =>
    intro o ho e
    obtain ⟨hfound, hlost⟩ := resolveJump_of_nodup hnodup hplaces ho
    by_cases hmem : o.target ∈ labelsOf code
    · obtain ⟨o', ho'⟩ := hfound hmem
      simp [ho', hmem]
    · simp [hlost hmem, hmem]
  constructor
  · rintro ⟨before, l, after, hsplit, hl, hbefore⟩
    simp only [ite_eq_left_iff, reduceCtorEq, imp_false, not_not] at hbefore
    split at hl
    · cases hl
    · rename_i hmem
      cases hl
      exact ⟨before, l, after, hsplit, hbefore, hmem, rfl⟩
  · rintro ⟨before, l, after, hsplit, hbefore, hmem, rfl⟩
    exact ⟨before, l, after, hsplit, if_neg hmem, fun t ht => if_pos (hbefore t ht)⟩

/-- Where labels are distinct, what is kept is resolved. -/
theorem linkLabels_resolves {out : List Instruction} (h : linkLabels code = .ok out) :
    List.Forall₂ (ResolvedAt code) (keptPlaces code) out := by
  obtain ⟨places, -, hmap⟩ := linkLabels_eq_ok h
  have hlength : out.length = (keptPlaces code).length := by
    rw [length_keptPlaces, linkLabels_end h (List.getElem?_eq_none (Nat.le_refl _))]
  refine List.forall₂_iff_get.mpr ⟨hlength.symm, fun q hq hq' => ?_⟩
  have hget : (keptPlaces code)[q]? = some ((keptPlaces code).get ⟨q, hq⟩) :=
    List.getElem?_eq_getElem hq
  obtain ⟨hm, hkept, hplace⟩ := keptPlaces_eq_some hget
  -- The instruction at place `q` of the result is what the kept place `m` became.
  generalize (keptPlaces code).get ⟨q, hq⟩ = m at hget hm hkept hplace
  obtain ⟨x, hx⟩ : ∃ x, code[m]? = some x := ⟨_, List.getElem?_eq_getElem hm⟩
  obtain ⟨o, ho, hresolve⟩ := (mapM_eq_ok hmap).2 _ _ (merged_at hx hkept)
  rw [← hplace] at ho
  have hout : out.get ⟨q, hq'⟩ = o := by
    rw [List.get_eq_getElem]
    exact Option.some.inj ((List.getElem?_eq_getElem hq').symm.trans ho)
  rw [hout]
  obtain ⟨hop, -, -⟩ := resolveJump_eq_ok hresolve
  obtain ⟨hcallee, hargc, hsame⟩ := resolveJump_keeps hresolve
  refine ⟨x, hx, hop, hcallee, hargc, ?other, ?jump⟩
  case other =>
    intro hjump
    rw [hsame hjump]
    exact ⟨rfl, rfl⟩
  case jump =>
    intro hjump k y hk hlabel
    obtain ⟨o', ho', -, hoperand, -⟩ := linkLabels_operand h hnodup hx hjump hk hlabel
    obtain ⟨n, hn⟩ := exists_firstKept (List.getElem?_eq_some_iff.mp hk).1
    rw [← hplace, ho] at ho'
    rw [Option.some.inj ho', hoperand]
    refine ⟨n, markerPlace code n, hn, keptPlaces_markerPlace hn.lt hn.kept, ?_⟩
    rw [hn.markerPlace_eq]

end

/-- Linking the labels of code in which they are distinct. It fails exactly if some jump or call
goes to a label that no instruction has, and then because of the first such label. Otherwise it
gives the instructions that are kept, in order, with each jump and call going to the first of them
that stands at its label or behind. -/
theorem linkLabels_positions (code : List Instruction) (hnodup : (labelsOf code).Nodup) :
    ((∃ e, linkLabels code = .error e) ↔
      ∃ i ∈ code, i.op.isJump = true ∧ i.target ∉ labelsOf code) ∧
    (∀ e, linkLabels code = .error e →
      ∃ before l after, targetsOf code = before ++ l :: after ∧
        (∀ t ∈ before, t ∈ labelsOf code) ∧ l ∉ labelsOf code ∧ e = .undefinedLabel l) ∧
    ∀ out, linkLabels code = .ok out → List.Forall₂ (ResolvedAt code) (keptPlaces code) out := by
  refine ⟨?_, fun e h => (linkLabels_error_iff hnodup).mp h,
    fun out h => linkLabels_resolves hnodup h⟩
  constructor
  · rintro ⟨e, h⟩
    obtain ⟨before, l, after, hsplit, -, hl, -⟩ := (linkLabels_error_iff hnodup).mp h
    have hmem : l ∈ targetsOf code := by simp [hsplit]
    obtain ⟨i, hi, rfl⟩ := List.mem_map.mp hmem
    rw [List.mem_filter] at hi
    exact ⟨i, hi.1, hi.2, hl⟩
  · rintro ⟨i, hi, hjump, hlost⟩
    by_contra hok
    obtain ⟨out, hout⟩ : ∃ out, linkLabels code = .ok out := by
      cases h : linkLabels code with
      | ok out => exact ⟨out, rfl⟩
      | error e => exact absurd ⟨e, h⟩ hok
    obtain ⟨m, hm⟩ := List.mem_iff_getElem?.mp hi
    exact hlost (linkLabels_target hout hm hjump)

/-- Three markers in front of a jump, of which the second has only the label that it inherits, and a
marker at the end. -/
def markerChain : List Instruction :=
  [{ op := .jump, target := "a" }, { op := .noop, label := "a" }, { op := .noop },
    { op := .noop, label := "b" }, { op := .jumpIf, target := "b" },
    { op := .call, target := "end", callee := "f", argc := 2 }, { op := .noop, label := "end" }]

/-- The three markers are removed, and both their labels lead to the jump behind them; the marker at
the end is kept. Without it the call has nowhere to go. -/
theorem linkLabels_positions_markerChain :
    (∃ out, linkLabels markerChain = .ok out ∧ keptPlaces markerChain = [0, 4, 5, 6] ∧
      out.map Instruction.operand = [1, 1, 3, 0] ∧
      List.Forall₂ (ResolvedAt markerChain) [0, 4, 5, 6] out) ∧
    ∃ e, linkLabels markerChain.dropLast = .error e ∧ e = .undefinedLabel "end" ∧
      ∃ i ∈ markerChain.dropLast, i.op.isJump = true ∧
        i.target ∉ labelsOf markerChain.dropLast := by
  constructor
  · obtain ⟨-, -, hlinked⟩ := linkLabels_positions markerChain (by decide +kernel)
    have hkept : keptPlaces markerChain = [0, 4, 5, 6] := by decide +kernel
    have hout := hlinked _ rfl
    rw [hkept] at hout
    exact ⟨_, rfl, hkept, rfl, hout⟩
  · obtain ⟨hfails, -, -⟩ := linkLabels_positions markerChain.dropLast (by decide +kernel)
    exact ⟨_, rfl, rfl, hfails.mp ⟨_, rfl⟩⟩

end StackScript
