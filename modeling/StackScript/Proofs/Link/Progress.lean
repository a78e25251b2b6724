import StackScript.Proofs.Link.Arity
import StackScript.Proofs.Link.Stream

/-!
# When linking succeeds

Linking the calls of code fails only for a call that does not suit its function. Linking its labels
then succeeds if the labels are distinct and every jump goes to one of them; if a label occurs twice
it fails for such a label.
-/

namespace StackScript

variable {e : LinkError} {places : List (Bytes × Nat)} {code : List Instruction} {symbols : Symbols}

/-! ## Labels -/

/-- Places are refused only for a label that occurs twice, in the code or before it. -/
theorem labelPlaces_eq_error {seen : List (Bytes × Nat)} {place : Nat}
    (h : labelPlaces seen place code = .error e) :
    ∃ l, e = .duplicateLabel l ∧ 2 ≤ (seen.map Prod.fst ++ labelsOf code).count l := by
  induction code generalizing seen place with
  | nil => cases h
  | cons i rest ih =>
    rw [labelPlaces] at h
    by_cases hl : i.label = []
    · rw [if_pos (by simp [hl])] at h
      rw [labelsOf_cons_of_empty hl]
      exact ih h
    · rw [if_neg (by simpa using hl)] at h
      rw [labelsOf_cons_of_label hl]
      split at h
      · rename_i hseen
        cases h
        refine ⟨i.label, rfl, ?_⟩
        -- The label was seen, and it stands here.
        have hmem : i.label ∈ seen.map Prod.fst := by
          obtain ⟨k, hk⟩ := Option.isSome_iff_exists.mp hseen
          obtain ⟨l₁, l₂, rfl, -⟩ := List.lookup_eq_some_iff.mp hk
          simp
        have hbefore := List.one_le_count_iff.mpr hmem
        rw [List.count_append, List.count_cons_self]
        omega
      · obtain ⟨l, rfl, hcount⟩ := ih h
        refine ⟨l, rfl, ?_⟩
        rwa [List.perm_middle.count_eq]

/-- Distinct labels all get a place. -/
theorem exists_labelPlaces (h : (labelsOf code).Nodup) :
    ∃ places, labelPlaces [] 0 code = .ok places := by
  cases hplaces : labelPlaces [] 0 code with
  | ok places => exact ⟨places, rfl⟩
  | error e =>
    obtain ⟨l, -, hcount⟩ := labelPlaces_eq_error hplaces
    have hone := List.nodup_iff_count.mp h l
    rw [List.map_nil, List.nil_append] at hcount
    omega

/-- A list can be gone through with something that fails on none of its elements. -/
theorem exists_mapM {f : α → Except ε β} {xs : List α} (h : ∀ x ∈ xs, ∃ y, f x = .ok y) :
    ∃ ys, xs.mapM f = .ok ys := by
  induction xs with
  | nil => exact ⟨[], rfl⟩
  | cons x xs ih =>
    obtain ⟨y, hy⟩ := h x List.mem_cons_self
    obtain ⟨ys, hys⟩ := ih fun x hx => h x (List.mem_cons_of_mem _ hx)
    refine ⟨y :: ys, ?_⟩
    rw [List.mapM_cons, hy, hys]
    rfl

/-- Where labels are distinct, a jump is resolved if its label is there, and otherwise refused. -/
theorem resolveJump_of_nodup (hnodup : (labelsOf code).Nodup)
    (hplaces : labelPlaces [] 0 (mergeMarkers [] code).1 = .ok places) {o : Instruction}
    (hjump : o.op.isJump = true) :
    (o.target ∈ labelsOf code → ∃ o', resolveJump (mergeMarkers [] code).2 places o = .ok o') ∧
    (o.target ∉ labelsOf code →
      resolveJump (mergeMarkers [] code).2 places o = .error (.undefinedLabel o.target)) := by
  unfold resolveJump
  rw [hjump, if_neg (by simp)]
  constructor
  · intro hmem
    -- The label leads to one that was kept, which has a place.
    obtain ⟨hne, y, hy, hlabel⟩ := mem_labelsOf.mp hmem
    obtain ⟨m, hm⟩ := List.mem_iff_getElem?.mp hy
    obtain ⟨k, hk, hklabel, hleads⟩ := mergeMarkers_canonical hnodup hm (hlabel ▸ hne)
    have hcanonical := hleads _ (Nat.le_refl _)
    have hplace := (labelPlaces_eq_ok hplaces).2.2.2 _ k hk hklabel
    rw [hlabel] at hcanonical
    change canonical? (mergeMarkers [] code).2 o.target = some k.label at hcanonical
    rw [hcanonical]
    simp only [hplace]
    exact ⟨_, rfl⟩
  · intro hmem
    -- The label is no alias, so it stands for itself, and it has no place.
    rw [← (mergeMarkers_labels code).mem_iff, List.mem_append, not_or] at hmem
    have hself : canonical? (mergeMarkers [] code).2 o.target = some o.target :=
      canonicalWithin_self hmem.2 _
    have hplace := (labelPlaces_eq_ok hplaces).2.2.1 _ hmem.1
    rw [hself]
    simp only [hplace]
    rfl

/-- Code whose labels have places is linked by resolving its jumps. -/
theorem linkLabels_of_places (hplaces : labelPlaces [] 0 (mergeMarkers [] code).1 = .ok places) :
    linkLabels code =
      (mergeMarkers [] code).1.mapM (resolveJump (mergeMarkers [] code).2 places) := by
  change (labelPlaces [] 0 (mergeMarkers [] code).1 >>= fun places =>
    (mergeMarkers [] code).1.mapM (resolveJump (mergeMarkers [] code).2 places)) = _
  rw [hplaces]
  rfl

/-- Code whose labels have no places is not linked. -/
theorem linkLabels_of_places_error
    (hplaces : labelPlaces [] 0 (mergeMarkers [] code).1 = .error e) :
    linkLabels code = .error e := by
  change (labelPlaces [] 0 (mergeMarkers [] code).1 >>= fun places =>
    (mergeMarkers [] code).1.mapM (resolveJump (mergeMarkers [] code).2 places)) = _
  rw [hplaces]
  rfl

/-- Labels are linked if they are distinct and every jump goes to one of them. -/
theorem exists_linkLabels (hnodup : (labelsOf code).Nodup)
    (htargets : ∀ i ∈ code, i.op.isJump = true → i.target ∈ labelsOf code) :
    ∃ out, linkLabels code = .ok out := by
  obtain ⟨places, hplaces⟩ := exists_labelPlaces (labelsOf_mergeMarkers_nodup hnodup)
  rw [linkLabels_of_places hplaces]
  apply exists_mapM
  intro o ho
  cases hjump : o.op.isJump with
  | false => exact ⟨o, resolveJump_of_not_jump hjump⟩
  | true =>
    obtain ⟨x, hx, hop, htarget⟩ := mergeMarkers_mem code o ho
    have hmem := htargets x hx (by rw [hop, hjump])
    rw [htarget] at hmem
    exact (resolveJump_of_nodup hnodup hplaces hjump).1 hmem

/-- Labels that are not distinct are not linked: one that occurs twice is named. -/
theorem linkLabels_duplicate (hown : ∀ i ∈ code, i.op = .noop → i.label ≠ [])
    (hentries : code.IsChain fun x y => x.op = .noop → isFunctionLabel x.label = true →
      y.label = []) (honce : ((labelsOf code).filter fun l => !isFunctionLabel l).Nodup)
    (hdup : ¬ (labelsOf code).Nodup) :
    ∃ l, linkLabels code = .error (.duplicateLabel l) ∧ 2 ≤ (labelsOf code).count l := by
  cases hplaces : labelPlaces [] 0 (mergeMarkers [] code).1 with
  | ok places => exact absurd (labels_nodup_of_places hplaces hown hentries honce) hdup
  | error e =>
    obtain ⟨l, rfl, hcount⟩ := labelPlaces_eq_error hplaces
    refine ⟨l, linkLabels_of_places_error hplaces, ?_⟩
    rw [← (mergeMarkers_labels code).count_eq, List.count_append]
    exact Nat.le_add_right_of_le hcount

/-! ## Calls -/

/-- Whether a fault of linking is one of a call. -/
def LinkError.isOfCall : LinkError → Bool
  | .functionNotFound _ => true
  | .tooFewArguments _ _ _ => true
  | .argumentLimit _ _ => true
  | .tooManyArguments _ _ _ => true
  | _ => false

/-- Linking calls fails only for a call. -/
theorem linkCalls_eq_error (h : linkCalls symbols code = .error e) : e.isOfCall = true := by
  obtain ⟨-, i, -, -, -, -, hfault⟩ := linkCalls_error_iff.mp h
  cases hfault <;> rfl

/-! ## Generated streams -/

section Stream

variable {symbols : Symbols} {code expanded : List Instruction} (hmarked : WellMarked code)
  (hcalls : linkCalls symbols code = .ok expanded)
include hmarked hcalls

/-- The jumps of a stream whose calls were linked go to its labels, if those of the stream do and
every function that is called and not the host's has a label. -/
theorem WellMarked.targets
    (hjumps : ∀ i ∈ code, i.op.isJump = true → i.op ≠ .call → i.target ∈ labelsOf code)
    (hcallees : ∀ i ∈ code, i.op = .call → ∀ f, symbols.function? i.callee = some f →
      f.isHost = false → i.target ∈ labelsOf code) :
    ∀ i ∈ expanded, i.op.isJump = true → i.target ∈ labelsOf expanded := by
  obtain ⟨rfl, hlinked⟩ := linkCalls_eq_ok hcalls hmarked.returns
  rw [expand_labels hmarked.marks hlinked]
  intro i hi hjump
  obtain ⟨x, hx, hi⟩ := List.mem_flatMap.mp hi
  by_cases hop : x.op = .call
  · obtain ⟨here, hhere⟩ := hlinked x hx hop
    rw [expansion_of_call hop hhere] at hi
    obtain ⟨f, hf, -, -, ⟨-, rfl⟩ | ⟨hhost, -, rfl⟩⟩ := linkCall_eq_ok hhere
    · -- A host call goes nowhere.
      obtain rfl := List.mem_singleton.mp hi
      cases hjump
    · rcases List.mem_append.mp hi with hi | hi
      · rw [List.eq_of_mem_replicate hi] at hjump
        cases hjump
      · obtain rfl := List.mem_singleton.mp hi
        exact hcallees x hx hop f hf hhost
  · rw [expansion_of_not_call hop] at hi
    obtain rfl := List.mem_singleton.mp hi
    exact hjumps i hx hjump hop

/-- A stream whose labels are distinct is linked. -/
theorem WellMarked.exists_linkLabels (hnodup : (labelsOf code).Nodup)
    (htargets : ∀ i ∈ expanded, i.op.isJump = true → i.target ∈ labelsOf expanded) :
    ∃ out, linkLabels expanded = .ok out := by
  obtain ⟨rfl, hlinked⟩ := linkCalls_eq_ok hcalls hmarked.returns
  rw [← expand_labels hmarked.marks hlinked] at hnodup
  exact StackScript.exists_linkLabels hnodup htargets

/-- A stream whose labels are not distinct is not linked, because of the label of a function. -/
theorem WellMarked.linkLabels_duplicate (hdup : ¬ (labelsOf code).Nodup) :
    ∃ l, linkLabels expanded = .error (.duplicateLabel l) ∧ isFunctionLabel l = true ∧
      2 ≤ (labelsOf code).count l := by
  obtain ⟨rfl, hlinked⟩ := linkCalls_eq_ok hcalls hmarked.returns
  have hlabels := expand_labels hmarked.marks hlinked
  obtain ⟨l, hfail, hcount⟩ := StackScript.linkLabels_duplicate
    (expand_marks hmarked.marks hlinked) (expand_entries hmarked.marks hlinked hmarked.entries)
    (by rw [hlabels]; exact hmarked.once) (by rw [hlabels]; exact hdup)
  rw [hlabels] at hcount
  refine ⟨l, hfail, ?_, hcount⟩
  -- All other labels occur once.
  by_contra hl
  have hone := List.nodup_iff_count.mp hmarked.once l
  rw [List.count_filter (p := fun l => !isFunctionLabel l) (by simpa using hl)] at hone
  omega

end Stream

end StackScript
