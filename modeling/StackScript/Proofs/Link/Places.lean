import StackScript.Compile.Build
import StackScript.Proofs.Link.Calls
import StackScript.Proofs.Link.Labels

/-!
# Where instructions go

Both passes of linking keep the order of what they keep, so each has a function from the places of
its input to the places of its output: `callPlace` for the pass that expands calls and drops returns
in front of returns, `markerPlace` for the one that drops markers. Unlike in generated streams, a
return may follow another here, a marker may be the last instruction, and an instruction that does
nothing may have no label.
-/

namespace StackScript

variable {i next x : Instruction} {code out rest : List Instruction} {a m : Nat}

/-! ## Places of calls -/

section Calls

variable {symbols : Symbols}

/-- The place of an instruction when the calls in front of it are expanded. -/
def callPlace (symbols : Symbols) (code : List Instruction) : Nat → Nat
  | 0 => 0
  | a + 1 => callPlace symbols code a + (linkedHead symbols (code.drop a)).length

/-- The rest of code is linked to the rest of the linked code. -/
theorem linkCalls_drop (h : linkCalls symbols code = .ok out) (a : Nat) :
    linkCalls symbols (code.drop a) = .ok (out.drop (callPlace symbols code a)) := by
  induction a with
  | zero => exact h
  | succ a ih =>
    rw [callPlace, ← List.drop_drop, ← List.drop_drop]
    cases hrest : code.drop a with
    | nil =>
      rw [hrest] at ih
      exact ih
    | cons i rest =>
      rw [hrest] at ih
      obtain ⟨there, hthere, hout, -⟩ := linkCalls_cons ih
      rw [hout, List.drop_left]
      exact hthere

/-- What an instruction becomes stands at its place. -/
theorem linkCalls_at (h : linkCalls symbols code = .ok out) (hi : code[a]? = some i) :
    (i.op = .call → linkCall symbols i = .ok (linkedHead symbols (code.drop a))) ∧
      ∀ j x, (linkedHead symbols (code.drop a))[j]? = some x →
        out[callPlace symbols code a + j]? = some x := by
  have hdrop := linkCalls_drop h a
  obtain ⟨hlt, rfl⟩ := List.getElem?_eq_some_iff.mp hi
  rw [List.drop_eq_getElem_cons hlt] at hdrop ⊢
  obtain ⟨there, -, hout, hcall⟩ := linkCalls_cons hdrop
  refine ⟨hcall, fun j x hx => ?_⟩
  obtain ⟨hj, -⟩ := List.getElem?_eq_some_iff.mp hx
  rw [← List.getElem?_drop, hout, List.getElem?_append_left hj, hx]

/-- An instruction that is neither a call nor a return becomes itself. -/
theorem linkedHead_of_plain (hi : code[a]? = some i) (hcall : i.op ≠ .call) (hret : i.op ≠ .ret) :
    linkedHead symbols (code.drop a) = [i] := by
  obtain ⟨hlt, rfl⟩ := List.getElem?_eq_some_iff.mp hi
  rw [List.drop_eq_getElem_cons hlt, linkedHead, if_neg hcall, if_neg (by simp [hret])]

/-- Code that begins with a return is linked to such code, even if that return is dropped. -/
theorem linkCalls_of_return (h : linkCalls symbols (i :: rest) = .ok out) (hret : i.op = .ret) :
    ∃ x, out.head? = some x ∧ x.op = .ret := by
  induction rest generalizing i out with
  | nil =>
    obtain ⟨there, -, rfl, -⟩ := linkCalls_cons h
    have hhead : linkedHead symbols [i] = [i] := by simp [linkedHead, hret, startsWithReturn]
    rw [hhead]
    exact ⟨i, rfl, hret⟩
  | cons j rest ih =>
    obtain ⟨there, hthere, rfl, -⟩ := linkCalls_cons h
    by_cases hj : j.op = .ret
    · -- The return is dropped, and the one behind it stands in its place.
      have hhead : linkedHead symbols (i :: j :: rest) = [] := by
        simp [linkedHead, hret, startsWithReturn, hj]
      rw [hhead]
      exact ih hthere hj
    · have hhead : linkedHead symbols (i :: j :: rest) = [i] := by
        simp [linkedHead, hret, startsWithReturn, hj]
      rw [hhead]
      exact ⟨i, rfl, hret⟩

/-- At the place of a return there is one. -/
theorem linkCalls_return (h : linkCalls symbols code = .ok out) (hi : code[a]? = some i)
    (hret : i.op = .ret) : ∃ x, out[callPlace symbols code a]? = some x ∧ x.op = .ret := by
  have hdrop := linkCalls_drop h a
  obtain ⟨hlt, rfl⟩ := List.getElem?_eq_some_iff.mp hi
  rw [List.drop_eq_getElem_cons hlt] at hdrop
  obtain ⟨x, hx, hop⟩ := linkCalls_of_return hdrop hret
  rw [List.head?_drop] at hx
  exact ⟨x, hx, hop⟩

/-- Behind the code there is nothing. -/
theorem linkCalls_end (h : linkCalls symbols code = .ok out) (ha : code[a]? = none) :
    out[callPlace symbols code a]? = none := by
  have hdrop := linkCalls_drop h a
  rw [List.drop_eq_nil_of_le (List.getElem?_eq_none_iff.mp ha)] at hdrop
  have hnil : out.drop (callPlace symbols code a) = [] := (Except.ok.inj hdrop).symm
  rw [List.getElem?_eq_none_iff]
  exact List.drop_eq_nil_iff.mp hnil

/-- What linked calls have in common: the function is one of the program, and no argument is
missing. -/
def FullCall (symbols : Symbols) (i : Instruction) : Prop :=
  ∃ f, symbols.function? i.callee = some f ∧ f.isHost = false ∧ i.argc = f.declared

/-- Where only markers have labels, linking calls keeps the labels in order and on markers, and its
calls pass all arguments. -/
theorem linkCalls_labels (h : linkCalls symbols code = .ok out)
    (hmarks : ∀ i ∈ code, i.label ≠ [] → i.op = .noop) :
    labelsOf out = labelsOf code ∧ (∀ i ∈ out, i.label ≠ [] → i.op = .noop) ∧
      ∀ i ∈ out, i.op = .call → FullCall symbols i := by
  induction code generalizing out with
  | nil =>
    cases h
    simp [labelsOf]
  | cons i rest ih =>
    obtain ⟨there, hthere, rfl, hcall⟩ := linkCalls_cons h
    obtain ⟨hlabels, hnoop, hfull⟩ := ih hthere fun j hj => hmarks j (List.mem_cons_of_mem _ hj)
    have hi := hmarks i List.mem_cons_self
    rw [labelsOf_append, hlabels]
    -- What the first instruction becomes has its label and calls with all arguments.
    have hhead : labelsOf (linkedHead symbols (i :: rest)) = labelsOf [i] ∧
        (∀ j ∈ linkedHead symbols (i :: rest), j.label ≠ [] → j.op = .noop) ∧
        ∀ j ∈ linkedHead symbols (i :: rest), j.op = .call → FullCall symbols j := by
      by_cases hop : i.op = .call
      · have hl : i.label = [] := by
          by_contra hl
          rw [hi hl] at hop
          cases hop
        obtain ⟨f, hf, -, -, ⟨hhost, hhere⟩ | ⟨huser, -, hhere⟩⟩ := linkCall_eq_ok (hcall hop)
        · rw [hhere]
          simp [labelsOf, hl]
        · rw [hhere]
          have hfalse : loadFalse.label = [] := rfl
          refine ⟨?_, ?_, ?_⟩
          · simp [labelsOf, hl, hfalse]
          · intro j hj
            rcases List.mem_append.mp hj with hj | hj
            · rw [List.eq_of_mem_replicate hj]
              exact fun h => absurd hfalse h
            · rw [List.mem_singleton.mp hj]
              exact fun h => absurd hl h
          · intro j hj
            rcases List.mem_append.mp hj with hj | hj
            · rw [List.eq_of_mem_replicate hj]
              exact fun h => absurd h (by decide)
            · rw [List.mem_singleton.mp hj]
              exact fun _ => ⟨f, hf, huser, rfl⟩
      · simp only [linkedHead, if_neg hop]
        split
        · rename_i hret
          have hl : i.label = [] := by
            by_contra hl
            simp [hi hl] at hret
          simp [labelsOf, hl]
        · refine ⟨rfl, ?_, ?_⟩ <;> intro j hj <;> rw [List.mem_singleton.mp hj]
          · exact hi
          · exact fun h => absurd h hop
    obtain ⟨hlabel, hheadNoop, hheadFull⟩ := hhead
    refine ⟨?_, ?_, ?_⟩
    · rw [hlabel, ← labelsOf_append]
      rfl
    · intro j hj
      rcases List.mem_append.mp hj with hj | hj
      · exact hheadNoop j hj
      · exact hnoop j hj
    · intro j hj
      rcases List.mem_append.mp hj with hj | hj
      · exact hheadFull j hj
      · exact hfull j hj

end Calls

/-! ## Places of markers -/

/-- Linking labels drops an instruction that does nothing, or keeps the instruction at its place but
for the operand of a jump. -/
theorem linkLabels_at (h : linkLabels code = .ok out) (hm : code[m]? = some x) :
    (x.op = .noop ∧ m + 1 < code.length ∧ markerPlace code (m + 1) = markerPlace code m) ∨
      (∃ o, out[markerPlace code m]? = some o ∧ o.op = x.op ∧
          (x.op.isJump = false → o.operand = x.operand)) ∧
        markerPlace code (m + 1) = markerPlace code m + 1 := by
  obtain ⟨places, -, hmap⟩ := linkLabels_eq_ok h
  have hplace := markerPlace_succ (List.getElem?_eq_some_iff.mp hm).1
  cases hremoved : removed code m with
  | true =>
    rw [hremoved] at hplace
    obtain ⟨hop, hlt⟩ := op_of_removed hm hremoved
    exact .inl ⟨hop, hlt, hplace⟩
  | false =>
    rw [hremoved] at hplace
    obtain ⟨o, ho, hresolve⟩ := (mapM_eq_ok hmap).2 _ _ (merged_at hm hremoved)
    obtain ⟨hop, hoperand, -⟩ := resolveJump_eq_ok hresolve
    exact .inr ⟨⟨o, ho, hop, hoperand⟩, hplace⟩

/-- A jump or call that is linked goes to a label of the code. -/
theorem linkLabels_target (h : linkLabels code = .ok out) (hm : code[m]? = some x)
    (hjump : x.op.isJump = true) : x.target ∈ labelsOf code := by
  obtain ⟨places, hplaces, hmap⟩ := linkLabels_eq_ok h
  have hkept := removed_of_op hm (Opcode.ne_noop_of_isJump hjump)
  obtain ⟨o, -, hresolve⟩ := (mapM_eq_ok hmap).2 _ _ (merged_at hm hkept)
  obtain ⟨l', place, hcanonical, hlookup, -⟩ := (resolveJump_eq_ok hresolve).2.2 hjump
  rw [← (mergeMarkers_labels code).mem_iff, List.mem_append]
  -- The label is an alias, or it stands for itself and has a place.
  by_cases halias : x.target ∈ (mergeMarkers [] code).2.map Prod.fst
  · exact .inr halias
  · have hself : l' = x.target :=
      Option.some.inj (hcanonical.symm.trans (canonicalWithin_self halias _))
    by_contra hnot
    rw [not_or] at hnot
    rw [hself, (labelPlaces_eq_ok hplaces).2.2.1 _ hnot.1] at hlookup
    cases hlookup

/-- The operand of a jump or call is the place of its label. -/
theorem linkLabels_operand (h : linkLabels code = .ok out) (hnodup : (labelsOf code).Nodup)
    (hm : code[m]? = some x) (hjump : x.op.isJump = true) {k : Nat} {y : Instruction}
    (hk : code[k]? = some y) (hlabel : y.label = x.target) :
    ∃ o, out[markerPlace code m]? = some o ∧ o.op = x.op ∧
      o.operand = UInt64.ofNat (markerPlace code k) ∧ markerPlace code k < out.length := by
  have hy : y.label ≠ [] := hlabel ▸ (mem_labelsOf.mp (linkLabels_target h hm hjump)).1
  obtain ⟨o, ho, hop, -, htarget⟩ :=
    linkLabels_place h hnodup hm (Opcode.ne_noop_of_isJump hjump)
  exact ⟨o, ho, hop, htarget hjump k y hk hy hlabel⟩

/-- Linking is linking the calls and then the labels. -/
theorem Compilation.link_eq_ok {c c' : Compilation} {p : Program} (h : c.link = .ok (p, c')) :
    ∃ expanded out, linkCalls c.symbols c.code.toList = .ok expanded ∧
      linkLabels expanded = .ok out ∧ p = { constants := c.pool.entries, code := out.toArray } := by
  unfold Compilation.link Compilation.linkedCode at h
  cases hcalls : linkCalls c.symbols c.code.toList with
  | error e =>
    rw [hcalls] at h
    cases h
  | ok expanded =>
    cases hlabels : linkLabels expanded with
    | error e =>
      simp only [hcalls, bind, Except.bind, hlabels] at h
      cases h
    | ok out =>
      simp only [hcalls, bind, Except.bind, hlabels] at h
      cases h
      exact ⟨expanded, out, rfl, hlabels, rfl⟩

end StackScript
