import Mathlib.Data.List.NodupEquivFin
import Mathlib.Data.List.Perm.Subperm
import Mathlib.Logic.Function.Iterate
import StackScript.Proofs.Link.Resolution

/-!
# Labels that occur more than once

Repeated labels are looked for among the instructions that are kept, with the labels that they have
when markers are merged. A label that a marker gives up for one directly behind it is not among
these: it becomes an alias, and of several aliases of one name the last counts. So a label that
occurs twice may be refused, may lead to one of its places, and may even lead round in a circle.
`linkLabels_outcome` says when which of these happens, for any stream.
-/

namespace StackScript

variable {l l' : Bytes} {i next next' : Instruction} {e : LinkError}
  {aliases : List (Bytes × Bytes)} {places : List (Bytes × Nat)} {rest : List Instruction}
  {k p : Nat}

section

variable (code : List Instruction)

/-- The instruction at a place is kept, and it has the given label when markers are merged. -/
structure KeptWith (k : Nat) (l : Bytes) : Prop where
  lt : k < code.length
  kept : removed code k = false
  label : mergedLabel code k = l
  ne : l ≠ []

/-- The instruction at a place is removed and the one behind it has a label of its own, for which
the first label is given up. -/
structure GivesUp (k : Nat) (l l' : Bytes) : Prop where
  removed : removed code k = true
  label : mergedLabel code k = l
  next : code[k + 1]?.map Instruction.label = some l'
  ne : l' ≠ []

/-- A label is kept at two places. -/
def Repeated (l : Bytes) : Prop := ∃ j k, j < k ∧ KeptWith code j l ∧ KeptWith code k l

/-- One label is an alias of another, for which it is given up at the last place where it is. -/
def AliasOf (l l' : Bytes) : Prop :=
  ∃ k, GivesUp code k l l' ∧ ∀ j l'', k < j → ¬GivesUp code j l l''

/-- The place to which a label leads. -/
inductive LeadsTo : Bytes → Nat → Prop
  | here {l : Bytes} {k : Nat} : (∀ l', ¬AliasOf code l l') → KeptWith code k l → LeadsTo l k
  | onward {l l' : Bytes} {k : Nat} : AliasOf code l l' → LeadsTo l' k → LeadsTo l k

/-- A label is an alias of one that is an alias of another, and so on without end. -/
def Endless (l : Bytes) : Prop :=
  ∃ f : Nat → Bytes, f 0 = l ∧ ∀ n, AliasOf code (f n) (f (n + 1))

/-- The first target of a jump or call that does not lead to any place. -/
def FirstLost (l : Bytes) : Prop :=
  ∃ before after, targetsOf code = before ++ l :: after ∧ (∀ t ∈ before, ∃ k, LeadsTo code t k) ∧
    ∀ k, ¬LeadsTo code l k

end

/-! ## Labels that are kept -/

section

variable {code : List Instruction}

/-- Merging gives each instruction that is kept its merged label. -/
theorem labels_mergeMarkers (code : List Instruction) :
    (mergeMarkers [] code).1.map Instruction.label = (keptPlaces code).map (mergedLabel code) := by
  have hlength : (mergeMarkers [] code).1.length = (keptPlaces code).length := by
    rw [length_keptPlaces, markerPlace_length]
  apply List.ext_getElem?
  intro q
  rw [List.getElem?_map, List.getElem?_map]
  cases hq : (keptPlaces code)[q]? with
  | none =>
    rw [List.getElem?_eq_none_iff, ← hlength, ← List.getElem?_eq_none_iff] at hq
    rw [hq]
    rfl
  | some m =>
    obtain ⟨hm, hkept, rfl⟩ := keptPlaces_eq_some hq
    rw [merged_at (List.getElem?_eq_getElem hm) hkept]
    rfl

/-- The places that are kept are in ascending order. -/
theorem keptPlaces_lt {q j : Nat} (hj : (keptPlaces code)[p]? = some j)
    (hk : (keptPlaces code)[q]? = some k) (h : p < q) : j < k := by
  have hsorted : (keptPlaces code).Pairwise (· < ·) := List.pairwise_lt_range.filter _
  obtain ⟨hp, rfl⟩ := List.getElem?_eq_some_iff.mp hj
  obtain ⟨hq, rfl⟩ := List.getElem?_eq_some_iff.mp hk
  exact List.pairwise_iff_getElem.mp hsorted p q hp hq h

/-- A label occurs twice among the merged labels if it is kept at two places. -/
theorem two_le_count_iff_repeated :
    2 ≤ (labelsOf (mergeMarkers [] code).1).count l ↔ Repeated code l := by
  by_cases hl : l = []
  · have hnone : l ∉ labelsOf (mergeMarkers [] code).1 := fun h => (mem_labelsOf.mp h).1 hl
    rw [List.count_eq_zero_of_not_mem hnone]
    constructor
    · intro h
      omega
    · rintro ⟨j, k, -, hj, -⟩
      exact absurd hl hj.ne
  -- The merged labels are those of the kept places in order, so that two occurrences are two
  -- places.
  rw [labelsOf, labels_mergeMarkers, List.count_filter (by simpa using hl),
    ← List.replicate_sublist_iff]
  change [l, l].Sublist ((keptPlaces code).map (mergedLabel code)) ↔ Repeated code l
  rw [← List.duplicate_iff_sublist, List.duplicate_iff_exists_distinct_get]
  constructor
  · rintro ⟨p, q, hpq, hp, hq⟩
    rw [List.get_eq_getElem, List.getElem_map] at hp hq
    have hplt : p.val < (keptPlaces code).length := by simpa using p.isLt
    have hqlt : q.val < (keptPlaces code).length := by simpa using q.isLt
    have hj := List.getElem?_eq_getElem hplt
    have hk := List.getElem?_eq_getElem hqlt
    obtain ⟨hjlt, hjkept, -⟩ := keptPlaces_eq_some hj
    obtain ⟨hklt, hkkept, -⟩ := keptPlaces_eq_some hk
    exact ⟨_, _, keptPlaces_lt hj hk hpq, ⟨hjlt, hjkept, hp.symm, hl⟩,
      ⟨hklt, hkkept, hq.symm, hl⟩⟩
  · rintro ⟨j, k, hjk, hj, hk⟩
    have hp := keptPlaces_markerPlace hj.lt hj.kept
    have hq := keptPlaces_markerPlace hk.lt hk.kept
    obtain ⟨hplt, hpget⟩ := List.getElem?_eq_some_iff.mp hp
    obtain ⟨hqlt, hqget⟩ := List.getElem?_eq_some_iff.mp hq
    -- Different kept places have different places in the merged code, in the same order.
    have hpq : markerPlace code j < markerPlace code k := by
      rcases Nat.lt_trichotomy (markerPlace code j) (markerPlace code k) with h | h | h
      · exact h
      · rw [h, hq] at hp
        cases hp
        exact absurd hjk (Nat.lt_irrefl _)
      · exact absurd (keptPlaces_lt hq hp h) (Nat.lt_asymm hjk)
    refine ⟨⟨markerPlace code j, by simpa using hplt⟩, ⟨markerPlace code k, by simpa using hqlt⟩,
      hpq, ?_, ?_⟩
    · rw [List.get_eq_getElem, List.getElem_map]
      simp only [hpget, hj.label]
    · rw [List.get_eq_getElem, List.getElem_map]
      simp only [hqget, hk.label]

/-- The labels have places if none is repeated. -/
theorem exists_labelPlaces_iff :
    (∃ places, labelPlaces [] 0 (mergeMarkers [] code).1 = .ok places) ↔
      ∀ l, ¬Repeated code l := by
  constructor
  · rintro ⟨places, hplaces⟩ l hl
    have hone := List.nodup_iff_count.mp (labelPlaces_eq_ok hplaces).1 l
    have htwo := two_le_count_iff_repeated.mpr hl
    omega
  · intro h
    apply exists_labelPlaces
    rw [List.nodup_iff_count]
    intro l
    have hl := mt two_le_count_iff_repeated.mp (h l)
    omega

/-- The place of a label is that of the instruction that keeps it. -/
theorem labelPlaces_lookup_iff (h : labelPlaces [] 0 (mergeMarkers [] code).1 = .ok places) :
    places.lookup l = some p ↔ ∃ k, KeptWith code k l ∧ p = markerPlace code k := by
  obtain ⟨-, -, hother, hplace⟩ := labelPlaces_eq_ok h
  have hkeeps {k : Nat} (hk : KeptWith code k l) : places.lookup l = some (markerPlace code k) := by
    have hat := merged_at (List.getElem?_eq_getElem hk.lt) hk.kept
    have hlookup := hplace _ _ hat (by rw [hk.label]; exact hk.ne)
    rwa [hk.label, Nat.zero_add] at hlookup
  constructor
  · intro hp
    have hmem : l ∈ labelsOf (mergeMarkers [] code).1 := by
      by_contra hno
      rw [hother l hno] at hp
      cases hp
    rw [labelsOf, labels_mergeMarkers, List.mem_filter, List.mem_map] at hmem
    obtain ⟨⟨k, hk, hlabel⟩, hne⟩ := hmem
    obtain ⟨q, hq⟩ := List.mem_iff_getElem?.mp hk
    obtain ⟨hlt, hkept, -⟩ := keptPlaces_eq_some hq
    have hk : KeptWith code k l := ⟨hlt, hkept, hlabel, by simpa using hne⟩
    exact ⟨k, hk, Option.some.inj (hp.symm.trans (hkeeps hk))⟩
  · rintro ⟨k, hk, rfl⟩
    exact hkeeps hk

end

/-! ## Labels that are given up -/

/-- What is given up at a place, and for what. -/
def handover? (code : List Instruction) (k : Nat) : Option (Bytes × Bytes) :=
  if removed code k then
    ((code[k + 1]?.map Instruction.label).filter fun l => !l.isEmpty).map (mergedLabel code k, ·)
  else none

/-- A place hands its label over if it gives it up. -/
theorem handover?_eq_some {code : List Instruction} :
    handover? code k = some (l, l') ↔ GivesUp code k l l' := by
  unfold handover?
  constructor
  · intro h
    split at h
    · rename_i hremoved
      simp only [Option.map_eq_some_iff, Option.filter_eq_some_iff] at h
      obtain ⟨_, ⟨hnext, hne⟩, h⟩ := h
      cases h
      exact ⟨hremoved, rfl, Option.map_eq_some_iff.mpr hnext, by simpa using hne⟩
    · cases h
  · rintro ⟨hremoved, rfl, hnext, hne⟩
    simp [hremoved, hnext, hne]

/-- What is handed over behind a merged marker. -/
theorem Shifts.handover?_succ (h : Shifts i next next' rest) (k : Nat) :
    handover? (i :: next :: rest) (k + 1) = handover? (next' :: rest) k := by
  unfold handover?
  rw [h.removed_succ, h.mergedLabel_succ]
  rfl

/-- The places behind the first instruction are those of the shorter stream. -/
theorem Shifts.handovers (h : Shifts i next next' rest) :
    (List.range (i :: next :: rest).length).filterMap (handover? (i :: next :: rest)) =
      (handover? (i :: next :: rest) 0).toList ++
        (List.range (next' :: rest).length).filterMap (handover? (next' :: rest)) := by
  have hcomp : handover? (i :: next :: rest) ∘ Nat.succ = handover? (next' :: rest) :=
    funext h.handover?_succ
  rw [List.length_cons, List.range_succ_eq_map, List.filterMap_cons, List.filterMap_map, hcomp]
  cases handover? (i :: next :: rest) 0 <;> rfl

/-- The aliases are what is given up, in order. -/
theorem mergeMarkers_aliases (code : List Instruction) :
    (mergeMarkers [] code).2 = (List.range code.length).filterMap (handover? code) := by
  induction code using merge_induction with
  | nil => rfl
  | single i => rfl
  | keep i next rest hi ih =>
    have hkept : removed (i :: next :: rest) 0 = false := by
      simp [removed, Instruction.marks_of_not_marker hi]
    rw [mergeMarkers_keep hi, (Shifts.keep hi).handovers, ← ih, handover?, hkept]
    rfl
  | pass i next rest hi hnext ih =>
    rw [mergeMarkers_pass hi hnext, (Shifts.pass hi hnext).handovers, ← ih]
    simp [handover?, hnext]
  | join i next rest hi hnext ih =>
    rw [mergeMarkers_join hi hnext, (Shifts.join hnext).handovers, ← ih, handover?,
      removed_marker hi]
    simp [mergedLabel, Option.filter_some, hnext]

/-- Of aliases that are taken from places in order, that of the last place counts. -/
theorem alias?_range {f : Nat → Option (Bytes × Bytes)} (n : Nat) :
    alias? ((List.range n).filterMap f) l = some l' ↔
      ∃ k, k < n ∧ f k = some (l, l') ∧ ∀ j l'', k < j → j < n → f j ≠ some (l, l'') := by
  induction n with
  | zero => simp [alias?]
  | succ n ih =>
    -- The aliases are searched from the last one on.
    have hstep : alias? ((List.range (n + 1)).filterMap f) l =
        ((f n).toList.lookup l).or (alias? ((List.range n).filterMap f) l) := by
      unfold alias?
      rw [List.range_succ, List.filterMap_append, List.reverse_append, List.lookup_append]
      cases h : f n <;> simp [h]
    by_cases hn : ∃ l'', f n = some (l, l'')
    · obtain ⟨l'', hn⟩ := hn
      rw [hstep, hn]
      simp only [Option.toList_some, List.lookup_cons_self, Option.some_or, Option.some.injEq]
      constructor
      · rintro rfl
        exact ⟨n, Nat.lt_succ_self n, hn, fun j _ hj hj' => by omega⟩
      · rintro ⟨k, hk, hfk, hlast⟩
        rcases Nat.lt_succ_iff_lt_or_eq.mp hk with hk | rfl
        · exact absurd hn (hlast n l'' hk (Nat.lt_succ_self n))
        · rw [hn] at hfk
          cases hfk
          rfl
    · have hnone : (f n).toList.lookup l = none := by
        cases h : f n with
        | none => rfl
        | some p =>
          rw [List.lookup_eq_none_iff]
          intro q hq
          rw [Option.toList_some, List.mem_singleton] at hq
          subst hq
          simpa using fun he : l = q.1 => hn ⟨q.2, by rw [h, he]⟩
      rw [hstep, hnone, Option.none_or, ih]
      constructor
      · rintro ⟨k, hk, hfk, hlast⟩
        refine ⟨k, Nat.lt_succ_of_lt hk, hfk, fun j l'' hj hj' hfj => ?_⟩
        rcases Nat.lt_succ_iff_lt_or_eq.mp hj' with hj' | rfl
        · exact hlast j l'' hj hj' hfj
        · exact hn ⟨l'', hfj⟩
      · rintro ⟨k, hk, hfk, hlast⟩
        rcases Nat.lt_succ_iff_lt_or_eq.mp hk with hk | rfl
        · exact ⟨k, hk, hfk, fun j l'' hj hj' => hlast j l'' hj (Nat.lt_succ_of_lt hj')⟩
        · exact absurd ⟨l', hfk⟩ hn

section

variable {code : List Instruction} {l l' : Bytes} {k n : Nat}

/-- A place that gives up a label is in the code. -/
theorem GivesUp.lt (h : GivesUp code k l l') : k < code.length := by
  obtain ⟨y, hy, -⟩ := Option.map_eq_some_iff.mp h.next
  exact Nat.lt_of_succ_lt (List.getElem?_eq_some_iff.mp hy).1

/-- The aliases that merging gives. -/
theorem alias?_eq_some_iff :
    alias? (mergeMarkers [] code).2 l = some l' ↔ AliasOf code l l' := by
  rw [mergeMarkers_aliases, alias?_range]
  simp only [ne_eq, handover?_eq_some]
  constructor
  · rintro ⟨k, -, hk, hlast⟩
    exact ⟨k, hk, fun j l'' hj hgives => hlast j l'' hj hgives.lt hgives⟩
  · rintro ⟨k, hk, hlast⟩
    exact ⟨k, hk.lt, hk, fun j l'' hj _ => hlast j l'' hj⟩

/-- The labels that get no alias. -/
theorem alias?_eq_none_iff :
    alias? (mergeMarkers [] code).2 l = none ↔ ∀ l', ¬AliasOf code l l' := by
  rw [Option.eq_none_iff_forall_ne_some]
  simp only [ne_eq, alias?_eq_some_iff]

/-! ## Following aliases -/

/-- The label that a label stands for in the end, if that is found. -/
theorem canonicalWithin_eq_some (h : canonicalWithin aliases n l = some l') :
    alias? aliases l' = none := by
  induction n generalizing l with
  | zero =>
    rw [canonicalWithin] at h
    split at h
    · cases h
    · rename_i hnone
      cases h
      exact Option.not_isSome_iff_eq_none.mp hnone
  | succ n ih =>
    rw [canonicalWithin] at h
    split at h
    · exact ih h
    · rename_i hnone
      cases h
      exact hnone

/-- What is found does not depend on how many aliases may be followed. -/
theorem canonicalWithin_add (h : canonicalWithin aliases n l = some l') (d : Nat) :
    canonicalWithin aliases (n + d) l = some l' := by
  induction n generalizing l with
  | zero =>
    rw [canonicalWithin] at h
    split at h
    · cases h
    · rename_i hnone
      rw [Option.not_isSome_iff_eq_none] at hnone
      cases h
      cases d <;> simp [canonicalWithin, hnone]
  | succ n ih =>
    rw [Nat.succ_add, canonicalWithin]
    rw [canonicalWithin] at h
    split at h
    · exact ih h
    · exact h

/-- What a label is an alias of, or else the label itself. -/
def aliasStep (aliases : List (Bytes × Bytes)) (l : Bytes) : Bytes := (alias? aliases l).getD l

/-- No label is found if aliases follow one another. -/
theorem canonicalWithin_eq_none_iff :
    canonicalWithin aliases n l = none ↔
      ∀ m, m ≤ n → (alias? aliases ((aliasStep aliases)^[m] l)).isSome := by
  induction n generalizing l with
  | zero =>
    rw [canonicalWithin]
    cases h : alias? aliases l <;> simp [h]
  | succ n ih =>
    rw [canonicalWithin]
    cases h : alias? aliases l with
    | none =>
      simp only [reduceCtorEq, false_iff]
      intro hall
      have hfirst := hall 0 (Nat.zero_le _)
      rw [Function.iterate_zero_apply, h] at hfirst
      cases hfirst
    | some other =>
      -- One step of the search is one of the iteration.
      have hstep : aliasStep aliases l = other := by rw [aliasStep, h]; rfl
      simp only [ih]
      constructor
      · intro hall m hm
        cases m with
        | zero => simp [h]
        | succ m =>
          rw [Function.iterate_succ_apply, hstep]
          exact hall m (Nat.le_of_succ_le_succ hm)
      · intro hall m hm
        have hnext := hall (m + 1) (Nat.succ_le_succ hm)
        rwa [Function.iterate_succ_apply, hstep] at hnext

/-- Labels that follow one another for as long as there are aliases do so for ever: one of them
occurs twice. -/
theorem alias?_iterate_isSome
    (h : ∀ m, m ≤ aliases.length → (alias? aliases ((aliasStep aliases)^[m] l)).isSome) (n : Nat) :
    (alias? aliases ((aliasStep aliases)^[n] l)).isSome := by
  obtain ⟨i, j, hij, hj, hsame⟩ : ∃ i j, i < j ∧ j ≤ aliases.length ∧
      (aliasStep aliases)^[i] l = (aliasStep aliases)^[j] l := by
    by_contra hno
    -- Otherwise there are more labels that are aliases than there are aliases.
    have hnodup : ((List.range (aliases.length + 1)).map ((aliasStep aliases)^[·] l)).Nodup := by
      rw [List.nodup_iff_pairwise_ne, List.pairwise_map, List.pairwise_iff_getElem]
      intro i j hi hj hij he
      rw [List.getElem_range, List.getElem_range] at he
      rw [List.length_range] at hj
      exact hno ⟨i, j, hij, Nat.le_of_lt_succ hj, he⟩
    have hsub : (List.range (aliases.length + 1)).map ((aliasStep aliases)^[·] l) ⊆
        aliases.map Prod.fst := by
      intro a ha
      obtain ⟨m, hm, rfl⟩ := List.mem_map.mp ha
      rw [List.mem_range] at hm
      by_contra hmem
      have hsome := h m (Nat.le_of_lt_succ hm)
      rw [alias?_eq_none hmem] at hsome
      cases hsome
    have hlength := (List.subperm_of_subset hnodup hsub).length_le
    rw [List.length_map, List.length_range, List.length_map] at hlength
    omega
  -- From the second time on the labels are the same as from the first time on.
  induction n using Nat.strong_induction_on with
  | _ n ih =>
    rcases Nat.lt_or_ge n j with hn | hn
    · exact h n (by omega)
    · have hback : (aliasStep aliases)^[n] l = (aliasStep aliases)^[n - j + i] l := by
        calc (aliasStep aliases)^[n] l
            = (aliasStep aliases)^[n - j + j] l := by rw [Nat.sub_add_cancel hn]
          _ = (aliasStep aliases)^[n - j] ((aliasStep aliases)^[j] l) :=
              Function.iterate_add_apply _ _ _ _
          _ = (aliasStep aliases)^[n - j] ((aliasStep aliases)^[i] l) := by rw [hsame]
          _ = (aliasStep aliases)^[n - j + i] l := (Function.iterate_add_apply _ _ _ _).symm
      rw [hback]
      exact ih (n - j + i) (by omega)

/-- Aliases go round in a circle if there is no end to them. -/
theorem canonical?_eq_none_iff :
    canonical? (mergeMarkers [] code).2 l = none ↔ Endless code l := by
  constructor
  · intro h
    -- As many steps as there are aliases lead to a label that was there before.
    have hall := alias?_iterate_isSome (canonicalWithin_eq_none_iff.mp h)
    refine ⟨fun n => (aliasStep (mergeMarkers [] code).2)^[n] l, rfl, fun n => ?_⟩
    obtain ⟨other, hother⟩ := Option.isSome_iff_exists.mp (hall n)
    have hnext : (aliasStep (mergeMarkers [] code).2)^[n + 1] l = other := by
      rw [Function.iterate_succ_apply', aliasStep, hother]
      rfl
    rw [← alias?_eq_some_iff]
    exact hother.trans (congrArg some hnext.symm)
  · rintro ⟨f, rfl, hf⟩
    have hiterate (n : Nat) : (aliasStep (mergeMarkers [] code).2)^[n] (f 0) = f n := by
      induction n with
      | zero => rfl
      | succ n ih =>
        rw [Function.iterate_succ_apply', ih, aliasStep, alias?_eq_some_iff.mpr (hf n)]
        rfl
    apply canonicalWithin_eq_none_iff.mpr
    intro m _
    rw [hiterate, alias?_eq_some_iff.mpr (hf m)]
    rfl

/-- A label leads where the label is kept that it stands for in the end. -/
theorem leadsTo_iff :
    LeadsTo code l k ↔
      ∃ l', canonical? (mergeMarkers [] code).2 l = some l' ∧ KeptWith code k l' := by
  constructor
  · intro h
    -- Along the way some number of aliases is followed; more would not change what is found.
    have hwithin : ∃ n l', canonicalWithin (mergeMarkers [] code).2 n l = some l' ∧
        KeptWith code k l' := by
      induction h with
      | here hno hkeeps =>
        exact ⟨0, _, by simp [canonicalWithin, alias?_eq_none_iff.mpr hno], hkeeps⟩
      | onward halias _ ih =>
        obtain ⟨n, l', hl', hkeeps⟩ := ih
        exact ⟨n + 1, l', by rw [canonicalWithin, alias?_eq_some_iff.mpr halias]; exact hl', hkeeps⟩
    obtain ⟨n, l', hl', hkeeps⟩ := hwithin
    refine ⟨l', ?_, hkeeps⟩
    cases hc : canonical? (mergeMarkers [] code).2 l with
    | none =>
      have hnone : canonicalWithin (mergeMarkers [] code).2 n l = none :=
        canonicalWithin_eq_none_iff.mpr fun m _ =>
          alias?_iterate_isSome (canonicalWithin_eq_none_iff.mp hc) m
      rw [hl'] at hnone
      cases hnone
    | some l'' =>
      have hsame := canonicalWithin_add hl' (mergeMarkers [] code).2.length
      rw [Nat.add_comm, canonicalWithin_add hc n] at hsame
      exact hsame
  · rintro ⟨l', hl', hkeeps⟩
    unfold canonical? at hl'
    generalize (mergeMarkers [] code).2.length = n at hl'
    induction n generalizing l with
    | zero =>
      have hnone := canonicalWithin_eq_some hl'
      rw [canonicalWithin] at hl'
      split at hl'
      · cases hl'
      · cases hl'
        exact .here (alias?_eq_none_iff.mp hnone) hkeeps
    | succ n ih =>
      rw [canonicalWithin] at hl'
      split at hl'
      · rename_i other hother
        exact .onward (alias?_eq_some_iff.mp hother) (ih hl')
      · rename_i hnone
        cases hl'
        exact .here (alias?_eq_none_iff.mp hnone) hkeeps

end

/-! ## The outcome of linking -/

/-- Why a jump or call to a label is refused, if it is. -/
def targetFault? (aliases : List (Bytes × Bytes)) (places : List (Bytes × Nat)) (l : Bytes) :
    Option LinkError :=
  match canonical? aliases l with
  | none => some (.circularLabel l)
  | some l' => if (places.lookup l').isSome then none else some (.undefinedLabel l)

/-- A jump fails with the fault of its target. -/
theorem resolveJump_error_iff {o : Instruction} (h : o.op.isJump = true) (e : LinkError) :
    resolveJump aliases places o = .error e ↔ targetFault? aliases places o.target = some e := by
  unfold resolveJump targetFault?
  rw [h, if_neg (by simp)]
  cases canonical? aliases o.target with
  | none => simp
  | some l' => cases hl' : places.lookup l' <;> simp [hl']

section

variable {code : List Instruction} {places : List (Bytes × Nat)}
  (hplaces : labelPlaces [] 0 (mergeMarkers [] code).1 = .ok places)
include hplaces

/-- A jump or call is accepted if its label leads somewhere. -/
theorem targetFault?_eq_none_iff :
    targetFault? (mergeMarkers [] code).2 places l = none ↔ ∃ k, LeadsTo code l k := by
  simp only [leadsTo_iff]
  unfold targetFault?
  cases canonical? (mergeMarkers [] code).2 l with
  | none => simp
  | some l' =>
    simp only [ite_eq_left_iff, reduceCtorEq, imp_false, not_not, Option.some.injEq,
      exists_eq_left']
    rw [Option.isSome_iff_exists]
    simp only [labelPlaces_lookup_iff hplaces]
    constructor
    · rintro ⟨p, k, hk, -⟩
      exact ⟨k, hk⟩
    · rintro ⟨k, hk⟩
      exact ⟨_, k, hk, rfl⟩

/-- A jump or call is refused because its label leads nowhere, for ever or in the end. -/
theorem targetFault?_eq_some_iff :
    targetFault? (mergeMarkers [] code).2 places l = some e ↔
      (∀ k, ¬LeadsTo code l k) ∧
        (e = .circularLabel l ∧ Endless code l ∨ e = .undefinedLabel l ∧ ¬Endless code l) := by
  have hnone := not_congr (targetFault?_eq_none_iff hplaces (l := l))
  rw [not_exists] at hnone
  rw [← hnone, ← canonical?_eq_none_iff]
  unfold targetFault?
  cases canonical? (mergeMarkers [] code).2 l with
  | none => simp [eq_comm]
  | some l' => by_cases h : (places.lookup l').isSome <;> simp [h, eq_comm]

/-- If no label is repeated, linking fails for the first target that leads nowhere. -/
theorem linkLabels_error_of_places :
    linkLabels code = .error e ↔ ∃ l, FirstLost code l ∧
      (e = .circularLabel l ∧ Endless code l ∨ e = .undefinedLabel l ∧ ¬Endless code l) := by
  rw [linkLabels_of_places hplaces,
    mapM_jumps_error_iff (targetFault? (mergeMarkers [] code).2 places)
      (fun _ => resolveJump_of_not_jump) fun o ho => resolveJump_error_iff ho,
    targetsOf_mergeMarkers, List.findSome?_eq_some_iff]
  simp only [targetFault?_eq_none_iff hplaces, targetFault?_eq_some_iff hplaces]
  constructor
  · rintro ⟨before, l, after, hsplit, ⟨hlost, hwhy⟩, hbefore⟩
    exact ⟨l, ⟨before, after, hsplit, hbefore, hlost⟩, hwhy⟩
  · rintro ⟨l, ⟨before, after, hsplit, hbefore, hlost⟩, hwhy⟩
    exact ⟨before, l, after, hsplit, ⟨hlost, hwhy⟩, hbefore⟩

/-- Linked jumps go where their labels lead. -/
theorem linkLabels_leads {out : List Instruction} (h : linkLabels code = .ok out) {m : Nat}
    (hm : code[m]? = some i) (hjump : i.op.isJump = true) :
    ∃ (o : Instruction) (q p k : Nat), (keptPlaces code)[q]? = some m ∧ out[q]? = some o ∧
      LeadsTo code i.target k ∧ (keptPlaces code)[p]? = some k ∧ o.operand = UInt64.ofNat p := by
  have hlt := (List.getElem?_eq_some_iff.mp hm).1
  have hkept := removed_of_op hm (Opcode.ne_noop_of_isJump hjump)
  rw [linkLabels_of_places hplaces] at h
  obtain ⟨o, ho, hresolve⟩ := (mapM_eq_ok h).2 _ _ (merged_at hm hkept)
  obtain ⟨-, -, hoperand⟩ := resolveJump_eq_ok hresolve
  obtain ⟨l', p, hl', hp, hoperand⟩ := hoperand hjump
  obtain ⟨k, hk, rfl⟩ := (labelPlaces_lookup_iff hplaces).mp hp
  exact ⟨o, _, _, k, keptPlaces_markerPlace hlt hkept, ho, leadsTo_iff.mpr ⟨l', hl', hk⟩,
    keptPlaces_markerPlace hk.lt hk.kept, hoperand⟩

end

section

variable {code : List Instruction}

/-- A label that is kept at two places is reported, and nothing else is reported so. -/
theorem linkLabels_duplicate_iff :
    (∃ l, linkLabels code = .error (.duplicateLabel l)) ↔ ∃ l, Repeated code l := by
  cases hplaces : labelPlaces [] 0 (mergeMarkers [] code).1 with
  | ok places =>
    have hno := exists_labelPlaces_iff.mp ⟨places, hplaces⟩
    constructor
    · rintro ⟨l, hl⟩
      obtain ⟨l', -, ⟨hl', -⟩ | ⟨hl', -⟩⟩ := (linkLabels_error_of_places hplaces).mp hl
      · cases hl'
      · cases hl'
    · rintro ⟨l, hl⟩
      exact absurd hl (hno l)
  | error e =>
    obtain ⟨l, rfl, hcount⟩ := labelPlaces_eq_error hplaces
    refine ⟨fun _ => ⟨l, two_le_count_iff_repeated.mp hcount⟩, fun _ => ⟨l, ?_⟩⟩
    exact linkLabels_of_places_error hplaces

/-- Where labels are distinct, none is kept at two places and aliases have an end. -/
theorem not_repeated_of_nodup (hnodup : (labelsOf code).Nodup) :
    (∀ l, ¬Repeated code l) ∧ ∀ l, ¬Endless code l := by
  refine ⟨exists_labelPlaces_iff.mp (exists_labelPlaces (labelsOf_mergeMarkers_nodup hnodup)), ?_⟩
  intro l hl
  rw [← canonical?_eq_none_iff] at hl
  by_cases hmem : l ∈ labelsOf code
  · obtain ⟨hne, x, hx, rfl⟩ := mem_labelsOf.mp hmem
    obtain ⟨m, hm⟩ := List.mem_iff_getElem?.mp hx
    obtain ⟨o, -, -, hleads⟩ := mergeMarkers_canonical hnodup hm hne
    have hsome := hleads _ (Nat.le_refl _)
    change canonical? _ _ = _ at hsome
    rw [hl] at hsome
    cases hsome
  · rw [← (mergeMarkers_labels code).mem_iff, List.mem_append, not_or] at hmem
    have hself := canonicalWithin_self hmem.2 (mergeMarkers [] code).2.length
    change canonical? _ _ = _ at hself
    rw [hl] at hself
    cases hself

end

/-- What linking does to the labels of any code, whether they are distinct or not. A repeated label
is reported if it is kept at two places. Otherwise linking comes to the first jump or call whose
label leads nowhere: it goes on for ever if aliases do, and reports the label if they end. If all
lead somewhere it succeeds, and all go where their labels lead. Aliases have an end if labels are
distinct. -/
theorem linkLabels_outcome (code : List Instruction) :
    ((∃ l, linkLabels code = .error (.duplicateLabel l)) ↔ ∃ l, Repeated code l) ∧
    (∀ l, linkLabels code = .error (.circularLabel l) ↔
      (∀ l', ¬Repeated code l') ∧ FirstLost code l ∧ Endless code l) ∧
    (∀ l, linkLabels code = .error (.undefinedLabel l) ↔
      (∀ l', ¬Repeated code l') ∧ FirstLost code l ∧ ¬Endless code l) ∧
    ((∃ out, linkLabels code = .ok out) ↔
      (∀ l, ¬Repeated code l) ∧ ∀ l ∈ targetsOf code, ∃ k, LeadsTo code l k) ∧
    (∀ out, linkLabels code = .ok out →
      ∀ (m : Nat) (i : Instruction), code[m]? = some i → i.op.isJump = true →
        ∃ (o : Instruction) (q p k : Nat), (keptPlaces code)[q]? = some m ∧ out[q]? = some o ∧
          LeadsTo code i.target k ∧ (keptPlaces code)[p]? = some k ∧
          o.operand = UInt64.ofNat p) ∧
    ((labelsOf code).Nodup → (∀ l, ¬Repeated code l) ∧ ∀ l, ¬Endless code l) := by
  -- A fault that is not a repeated label arises only if all labels have places.
  have hlost (e : LinkError) (he : ∀ l, e ≠ .duplicateLabel l) : linkLabels code = .error e ↔
      (∀ l', ¬Repeated code l') ∧ ∃ l, FirstLost code l ∧
        (e = .circularLabel l ∧ Endless code l ∨ e = .undefinedLabel l ∧ ¬Endless code l) := by
    by_cases hno : ∀ l', ¬Repeated code l'
    · obtain ⟨places, hplaces⟩ := exists_labelPlaces_iff.mpr hno
      rw [linkLabels_error_of_places hplaces, and_iff_right hno]
    · constructor
      · intro h
        obtain ⟨l, hl⟩ := linkLabels_duplicate_iff.mpr (by simpa using hno)
        exact absurd (Except.error.inj (h.symm.trans hl)) (he l)
      · rintro ⟨h, -⟩
        exact absurd h hno
  refine ⟨linkLabels_duplicate_iff, fun l => ?_, fun l => ?_, ?_, ?_, not_repeated_of_nodup⟩
  · rw [hlost _ (by simp)]
    simp
  · rw [hlost _ (by simp)]
    simp
  · constructor
    · rintro ⟨out, hout⟩
      obtain ⟨places, hplaces, -⟩ := linkLabels_eq_ok hout
      refine ⟨exists_labelPlaces_iff.mp ⟨places, hplaces⟩, fun l hl => ?_⟩
      obtain ⟨i, hi, rfl⟩ := List.mem_map.mp hl
      rw [List.mem_filter] at hi
      obtain ⟨m, hm⟩ := List.mem_iff_getElem?.mp hi.1
      obtain ⟨-, -, -, k, -, -, hk, -⟩ := linkLabels_leads hplaces hout hm hi.2
      exact ⟨k, hk⟩
    · rintro ⟨hno, hleads⟩
      cases hlink : linkLabels code with
      | ok out => exact ⟨out, rfl⟩
      | error e =>
        obtain ⟨places, hplaces⟩ := exists_labelPlaces_iff.mpr hno
        obtain ⟨l, ⟨before, after, hsplit, -, hl⟩, -⟩ :=
          (linkLabels_error_of_places hplaces).mp hlink
        obtain ⟨k, hk⟩ := hleads l (by simp [hsplit])
        exact absurd hk (hl k)
  · intro out hout m i hm hjump
    obtain ⟨places, hplaces, -⟩ := linkLabels_eq_ok hout
    exact linkLabels_leads hplaces hout hm hjump

/-- A label that occurs twice is reported. -/
def ReportsRepeats (code : List Instruction) : Prop :=
  ¬(labelsOf code).Nodup → ∃ l, linkLabels code = .error (.duplicateLabel l)

/-- A jump to a label of two markers, of which the first stands directly in front of another. -/
def shadowedMarker : List Instruction :=
  [{ op := .jump, target := "x" }, { op := .noop, label := "x" }, { op := .noop, label := "y" },
    { op := .pop }, { op := .noop, label := "x" }, { op := .ret }]

/-- A jump to a label of two markers, one directly in front of the other. -/
def doubledMarker : List Instruction :=
  [{ op := .jump, target := "x" }, { op := .noop, label := "x" }, { op := .noop, label := "x" },
    { op := .ret }]

/-- Labels that occur twice are not always reported: of two places the jump may be bound to one, and
its label may be an alias of itself. -/
theorem not_reportsRepeats :
    ¬ReportsRepeats shadowedMarker ∧ ¬ReportsRepeats doubledMarker ∧
    (∃ out, linkLabels shadowedMarker = .ok out ∧ out.map Instruction.operand = [1, 0, 0]) ∧
    linkLabels doubledMarker = .error (.circularLabel "x") := by
  refine ⟨fun h => ?_, fun h => ?_, ⟨_, rfl, rfl⟩, rfl⟩
  · obtain ⟨l, hl⟩ := h (by decide +kernel)
    cases hl
  · obtain ⟨l, hl⟩ := h (by decide +kernel)
    cases hl

end StackScript
