import StackScript.Proofs.Link.Merging

/-!
# Where labels lead

A label leads along its aliases to that of an instruction that merging keeps. From this follows what
linking does to a stream whose labels are distinct: an instruction keeps its place among those that
survive, and a jump gets the place of the first instruction that survives behind the label it names.
-/

namespace StackScript

variable {a b l : Bytes} {i x : Instruction} {aliases : List (Bytes × Bytes)}
  {places : List (Bytes × Nat)} {code out : List Instruction} {m : Nat}

/-- An alias does not matter to labels that it is not one of. -/
theorem canonicalWithin_cons (ha : ∀ p ∈ aliases, p.2 ≠ a) (n : Nat) (hl : l ≠ a) :
    canonicalWithin ((a, b) :: aliases) n l = canonicalWithin aliases n l := by
  have halias {l : Bytes} (hl : l ≠ a) : alias? ((a, b) :: aliases) l = alias? aliases l := by
    unfold alias?
    rw [List.reverse_cons, List.lookup_append]
    simp [hl]
  induction n generalizing l with
  | zero => rw [canonicalWithin, canonicalWithin, halias hl]
  | succ n ih =>
    rw [canonicalWithin, canonicalWithin, halias hl]
    cases h : alias? aliases l with
    | none => rfl
    | some other =>
      obtain ⟨_, _, hsplit, -⟩ := List.lookup_eq_some_iff.mp h
      have hmem : (l, other) ∈ aliases.reverse := by simp [hsplit]
      exact ih (ha _ (List.mem_reverse.mp hmem))

/-- A label that is no alias is not found among them. -/
theorem alias?_eq_none (h : l ∉ aliases.map Prod.fst) : alias? aliases l = none := by
  unfold alias?
  rw [List.lookup_eq_none_iff]
  intro p hp
  simp only [List.mem_map, not_exists, not_and] at h
  simpa using fun he => h p (List.mem_reverse.mp hp) he.symm

/-- A label that is no alias stands for itself. -/
theorem canonicalWithin_self (h : l ∉ aliases.map Prod.fst) (n : Nat) :
    canonicalWithin aliases n l = some l := by
  cases n <;> simp [canonicalWithin, alias?_eq_none h]

/-- An alias leads where its label leads. -/
theorem canonicalWithin_alias (h : a ∉ aliases.map Prod.fst) (n : Nat) :
    canonicalWithin ((a, b) :: aliases) (n + 1) a = canonicalWithin ((a, b) :: aliases) n b := by
  have hsome : alias? ((a, b) :: aliases) a = some b := by
    have hnone := alias?_eq_none h
    unfold alias? at hnone ⊢
    rw [List.reverse_cons, List.lookup_append, hnone]
    simp
  rw [canonicalWithin, hsome]

/-- Where labels are distinct, a label leads to the one of the first instruction that survives
behind it. -/
theorem mergeMarkers_canonical (hnodup : (labelsOf code).Nodup) (hm : code[m]? = some x)
    (hx : x.label ≠ []) :
    ∃ o, (mergeMarkers [] code).1[markerPlace code m]? = some o ∧ o.label ≠ [] ∧
      ∀ n, (mergeMarkers [] code).2.length ≤ n →
        canonicalWithin (mergeMarkers [] code).2 n x.label = some o.label := by
  induction code using merge_induction generalizing m x with
  | nil => cases hm
  | single i =>
    cases m with
    | zero =>
      cases hm
      rw [mergeMarkers_single, Instruction.carrying_nil, markerPlace_zero]
      exact ⟨i, rfl, hx, fun n _ => canonicalWithin_self (by simp) n⟩
    | succ m => cases hm
  | keep i next rest hi ih =>
    have hperm := mergeMarkers_labels (i :: next :: rest)
    rw [mergeMarkers_keep hi] at hperm ⊢
    cases m with
    | zero =>
      cases hm
      refine ⟨i, by rw [markerPlace_zero]; rfl, hx, fun n _ => canonicalWithin_self ?_ n⟩
      rw [labelsOf_cons_of_label hx, labelsOf_cons_of_label hx] at hperm
      rw [labelsOf_cons_of_label hx] at hnodup
      have := (hperm.nodup_iff.mpr hnodup)
      rw [List.cons_append, List.nodup_cons, List.mem_append] at this
      exact fun h => this.1 (.inr h)
    | succ m =>
      rw [markerPlace_keep hi]
      refine ih ?_ hm hx
      by_cases hl : i.label = []
      · rwa [labelsOf_cons_of_empty hl] at hnodup
      · rw [labelsOf_cons_of_label hl] at hnodup
        exact (List.nodup_cons.mp hnodup).2
  | pass i next rest hi hnext ih =>
    have hl := Instruction.label_ne_of_isMarker hi
    rw [mergeMarkers_pass hi hnext]
    rw [labelsOf_cons_of_label hl, labelsOf_cons_of_empty hnext] at hnodup
    have hnodup' : (labelsOf ({ next with label := i.label } :: rest)).Nodup := by
      rwa [labelsOf_cons_of_label (by exact hl)]
    cases m with
    | zero =>
      cases hm
      have hfirst := ih (m := 0) hnodup' rfl hl
      rwa [markerPlace_zero] at hfirst ⊢
    | succ m =>
      rw [markerPlace_pass hi hnext]
      cases m with
      | zero =>
        cases hm
        exact absurd hnext hx
      | succ m => exact ih (m := m + 1) hnodup' hm hx
  | join i next rest hi hnext ih =>
    have hperm := mergeMarkers_labels (next :: rest)
    have hmem := mergeMarkers_alias_mem (next :: rest)
    rw [mergeMarkers_join hi hnext]
    rw [labelsOf_cons_of_label (Instruction.label_ne_of_isMarker hi), List.nodup_cons] at hnodup
    obtain ⟨hfresh, hnodup⟩ := hnodup
    -- The new alias is neither an alias already nor what one stands for, as labels are distinct.
    have hkeys : i.label ∉ (mergeMarkers [] (next :: rest)).2.map Prod.fst := fun h =>
      hfresh (hperm.mem_iff.mp (List.mem_append_right _ h))
    have hvalues : ∀ p ∈ (mergeMarkers [] (next :: rest)).2, p.2 ≠ i.label := fun p hp he =>
      hfresh (he ▸ hmem p hp)
    cases m with
    | zero =>
      cases hm
      obtain ⟨o, ho, hol, hcanon⟩ := ih (m := 0) hnodup rfl hnext
      rw [markerPlace_zero] at ho ⊢
      refine ⟨o, ho, hol, fun n hn => ?_⟩
      -- The first step is from the alias to the label behind it; the rest is the hypothesis.
      obtain ⟨n, rfl⟩ : ∃ n', n = n' + 1 := ⟨n - 1, by simp at hn; omega⟩
      have hne : next.label ≠ i.label := by
        intro he
        rw [labelsOf_cons_of_label hnext, he] at hfresh
        exact hfresh List.mem_cons_self
      rw [canonicalWithin_alias hkeys, canonicalWithin_cons hvalues n hne]
      exact hcanon n (by simpa using hn)
    | succ m =>
      obtain ⟨o, ho, hol, hcanon⟩ := ih hnodup hm hx
      rw [markerPlace_join hi hnext]
      refine ⟨o, ho, hol, fun n hn => ?_⟩
      have hne : x.label ≠ i.label := by
        intro he
        exact hfresh (mem_labelsOf.mpr ⟨he ▸ hx, x, List.mem_of_getElem? hm, he⟩)
      rw [canonicalWithin_cons hvalues n hne]
      exact hcanon n (by simp at hn; omega)

/-- An entry of another key is passed over. -/
theorem lookup_cons_of_ne {k : Bytes} (h : l ≠ k) (v : α) (entries : List (Bytes × α)) :
    ((k, v) :: entries).lookup l = entries.lookup l := by
  rw [List.lookup_cons, beq_eq_false_iff_ne.mpr h]

/-- The places of labels: no label occurs twice, and each has the place of its instruction. -/
theorem labelPlaces_eq_ok {seen : List (Bytes × Nat)} {place : Nat}
    (h : labelPlaces seen place code = .ok places) :
    (labelsOf code).Nodup ∧ (∀ l ∈ labelsOf code, seen.lookup l = none) ∧
      (∀ l, l ∉ labelsOf code → places.lookup l = seen.lookup l) ∧
      ∀ k o, code[k]? = some o → o.label ≠ [] → places.lookup o.label = some (place + k) := by
  induction code generalizing seen place with
  | nil =>
    cases h
    simp [labelsOf]
  | cons i rest ih =>
    rw [labelPlaces] at h
    by_cases hl : i.label = []
    · rw [if_pos (by simp [hl])] at h
      obtain ⟨hnodup, hseen, hother, hplace⟩ := ih h
      rw [labelsOf_cons_of_empty hl]
      refine ⟨hnodup, hseen, hother, fun k o hk ho => ?_⟩
      cases k with
      | zero =>
        cases hk
        exact absurd hl ho
      | succ k => rw [hplace k o hk ho, Nat.add_right_comm, Nat.add_assoc]
    · rw [if_neg (by simpa using hl)] at h
      split at h
      · cases h
      · rename_i hfresh
        obtain ⟨hnodup, hseen, hother, hplace⟩ := ih h
        -- The label is entered before the rest is gone through, where none of those entered may
        -- occur.
        have hi : i.label ∉ labelsOf rest := fun hmem => by simpa using hseen _ hmem
        rw [labelsOf_cons_of_label hl]
        refine ⟨List.nodup_cons.mpr ⟨hi, hnodup⟩, ?_, ?_, ?_⟩
        · intro l hmem
          rcases List.mem_cons.mp hmem with rfl | hmem
          · exact Option.not_isSome_iff_eq_none.mp hfresh
          · have hne : l ≠ i.label := fun he => hi (he ▸ hmem)
            rw [← lookup_cons_of_ne hne place seen]
            exact hseen l hmem
        · intro l hmem
          rw [List.mem_cons, not_or] at hmem
          rw [hother l hmem.2, lookup_cons_of_ne hmem.1]
        · intro k o hk ho
          cases k with
          | zero =>
            cases hk
            rw [hother _ hi]
            exact List.lookup_cons_self
          | succ k => rw [hplace k o hk ho, Nat.add_right_comm, Nat.add_assoc]

/-- Going through a list with something that may fail gives one result for each element. -/
theorem mapM_eq_ok {f : α → Except ε β} {xs : List α} {ys : List β} (h : xs.mapM f = .ok ys) :
    ys.length = xs.length ∧
      ∀ (k : Nat) (x : α), xs[k]? = some x → ∃ y, ys[k]? = some y ∧ f x = .ok y := by
  induction xs generalizing ys with
  | nil =>
    cases h
    simp
  | cons x xs ih =>
    rw [List.mapM_cons] at h
    cases hx : f x with
    | error e =>
      rw [hx] at h
      cases h
    | ok y =>
      cases hxs : xs.mapM f with
      | error e =>
        rw [hx, hxs] at h
        cases h
      | ok zs =>
        rw [hx, hxs] at h
        cases h
        obtain ⟨hlength, hget⟩ := ih hxs
        refine ⟨congrArg (· + 1) hlength, fun k z hz => ?_⟩
        cases k with
        | zero =>
          cases hz
          exact ⟨y, rfl, hx⟩
        | succ k => exact hget k z hz

/-- Linking labels is merging, finding the places and resolving the jumps. -/
theorem linkLabels_eq_ok (h : linkLabels code = .ok out) :
    ∃ places, labelPlaces [] 0 (mergeMarkers [] code).1 = .ok places ∧
      (mergeMarkers [] code).1.mapM (resolveJump (mergeMarkers [] code).2 places) = .ok out := by
  change (labelPlaces [] 0 (mergeMarkers [] code).1 >>= fun places =>
    (mergeMarkers [] code).1.mapM (resolveJump (mergeMarkers [] code).2 places)) = .ok out at h
  cases hplaces : labelPlaces [] 0 (mergeMarkers [] code).1 with
  | error e =>
    rw [hplaces] at h
    cases h
  | ok places =>
    rw [hplaces] at h
    exact ⟨places, rfl, h⟩

/-- What is no jump stays. -/
theorem resolveJump_of_not_jump (h : i.op.isJump = false) :
    resolveJump aliases places i = .ok i := by
  unfold resolveJump
  rw [h]
  rfl

/-- What an instruction is resolved to: a jump or call goes to the label that its target stands for
and to the place of that, and any other instruction stays as it is. -/
theorem resolveJump_cases {o : Instruction} (h : resolveJump aliases places i = .ok o) :
    i.op.isJump = false ∧ o = i ∨
      i.op.isJump = true ∧ ∃ l place, canonical? aliases i.target = some l ∧
        places.lookup l = some place ∧
        o = { i with target := l, operand := UInt64.ofNat place } := by
  cases hjump : i.op.isJump with
  | false =>
    rw [resolveJump_of_not_jump hjump] at h
    cases h
    exact .inl ⟨rfl, rfl⟩
  | true =>
    unfold resolveJump at h
    rw [hjump, if_neg (by simp)] at h
    split at h
    · cases h
    · rename_i l hl
      split at h
      · rename_i place hplace
        cases h
        exact .inr ⟨rfl, l, place, hl, hplace, rfl⟩
      · cases h

/-- Resolving changes the operands of jumps and calls only. -/
theorem resolveJump_eq_ok {o : Instruction} (h : resolveJump aliases places i = .ok o) :
    o.op = i.op ∧ (i.op.isJump = false → o.operand = i.operand) ∧
      (i.op.isJump = true → ∃ l place, canonical? aliases i.target = some l ∧
        places.lookup l = some place ∧ o.operand = UInt64.ofNat place) := by
  rcases resolveJump_cases h with ⟨hjump, rfl⟩ | ⟨hjump, l, place, hl, hplace, rfl⟩
  · exact ⟨rfl, fun _ => rfl, fun hyes => absurd (hjump.symm.trans hyes) (by decide)⟩
  · exact ⟨rfl, fun hno => absurd (hno.symm.trans hjump) (by decide),
      fun _ => ⟨l, place, hl, hplace, rfl⟩⟩

/-- A jump or a call does something. -/
theorem Opcode.ne_noop_of_isJump {op : Opcode} (h : op.isJump = true) : op ≠ .noop := by
  rintro rfl
  cases h

/-- The place behind the code is the one behind the linked code. -/
theorem linkLabels_end (h : linkLabels code = .ok out) (hm : code[m]? = none) :
    markerPlace code m = out.length := by
  obtain ⟨places, -, hmap⟩ := linkLabels_eq_ok h
  rw [List.getElem?_eq_none_iff] at hm
  rw [(mapM_eq_ok hmap).1, markerPlace, if_neg (by omega)]

/-- What linking labels makes of an instruction that does something, if labels are distinct: it
stands at its place among those that survive, and a jump or call gets the place of the first one
that survives behind the label that it names. -/
theorem linkLabels_place (h : linkLabels code = .ok out) (hnodup : (labelsOf code).Nodup)
    (hm : code[m]? = some x) (hx : x.op ≠ .noop) :
    ∃ o, out[markerPlace code m]? = some o ∧ o.op = x.op ∧
      (x.op.isJump = false → o.operand = x.operand) ∧
      (x.op.isJump = true → ∀ m' y, code[m']? = some y → y.label ≠ [] → y.label = x.target →
        o.operand = UInt64.ofNat (markerPlace code m') ∧ markerPlace code m' < out.length) := by
  obtain ⟨places, hplaces, hmap⟩ := linkLabels_eq_ok h
  obtain ⟨hlength, hresolved⟩ := mapM_eq_ok hmap
  obtain ⟨o, ho, hresolve⟩ := hresolved _ _ (merged_at hm (removed_of_op hm hx))
  obtain ⟨hop, hoperand, htarget⟩ := resolveJump_eq_ok hresolve
  refine ⟨o, ho, hop, hoperand, fun hjump m' y hm' hy hlabel => ?_⟩
  obtain ⟨l', place, hcanonical, hlookup, ho'⟩ := htarget hjump
  obtain ⟨y', hy', hylabel, hlead⟩ := mergeMarkers_canonical hnodup hm' hy
  -- What the target leads to in the aliases is the label of the instruction that survives.
  have hl' : y'.label = l' := by
    have hlead := hlead _ (Nat.le_refl _)
    rw [hlabel] at hlead
    exact Option.some.inj (hlead.symm.trans hcanonical)
  have hplace := (labelPlaces_eq_ok hplaces).2.2.2 _ y' hy' hylabel
  rw [hl', hlookup, Nat.zero_add] at hplace
  rw [ho', Option.some.inj hplace, hlength]
  exact ⟨rfl, (List.getElem?_eq_some_iff.mp hy').1⟩

end StackScript
