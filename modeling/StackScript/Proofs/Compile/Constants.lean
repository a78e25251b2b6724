import StackScript.Proofs.Layout.Compiled
import StackScript.Proofs.Tree.Literals
import StackScript.Proofs.Value.Keys

/-!
# The constants and operations of compiled programs

The constants of a program that compiles are values that are no arrays, or literals of the tree, and
no array is entered twice (`compile_origin`): what a tree loads beside its literals are truth values
and integers. Its operations are all defined (`compile_valid`): those that are generated are, and
linking keeps or replaces operations by defined ones.
-/

namespace StackScript

variable {t : Tree Cell} {imports : List Import} {p : Program}

/-- The entries of a pool are those that it had and constants that were entered. -/
theorem Pool.mem_addAll {p : Pool} {vs : List Cell} {e : Cell}
    (h : e ∈ (p.addAll vs).entries.toList) : e ∈ p.entries.toList ∨ e ∈ vs := by
  induction vs generalizing p with
  | nil => exact .inl h
  | cons v vs ih =>
    have h : e ∈ ((p.add v).1.addAll vs).entries.toList := h
    rcases ih h with h | h
    · cases hfind : p.find? v with
      | some k =>
        rw [add_of_find?_some hfind] at h
        exact .inl h
      | none =>
        rw [add_entries hfind] at h
        exact (List.mem_append.mp h).imp_right fun h => List.mem_cons.mpr (.inl (by simpa using h))
    · exact .inr (List.mem_cons_of_mem v h)

/-- No array is entered twice into a pool. -/
theorem Pool.distinctArrays (p : Pool) : p.entries.toList.Pairwise Cell.DistinctArrays := by
  obtain ⟨entries, index, hbuilt⟩ := p
  induction hbuilt with
  | empty => exact .nil
  | enter hbuilt hv ih =>
    rw [hbuilt.lookup_eq, List.findIdx?_eq_none_iff] at hv
    rw [Array.toList_push]
    refine List.pairwise_append.mpr ⟨ih, List.pairwise_singleton _ _, fun e he f hf => ?_⟩
    obtain rfl := List.mem_singleton.mp hf
    -- An entry with the same array would have been found.
    rintro k rfl rfl
    have hother := hv _ he
    simp [Cell.identical, Value.identical] at hother

/-! ## Constants -/

/-- Constants are literals or values that are no arrays. -/
def AllFrom (literals vs : List Cell) : Prop := ∀ v ∈ vs, Cell.FromLiterals literals v

namespace AllFrom

variable {ls ms vs ws : List Cell}

/-- What two parts load comes from the literals of both. -/
theorem append (h : AllFrom ls vs) (h' : AllFrom ms ws) : AllFrom (ls ++ ms) (vs ++ ws) :=
  List.forall_mem_append.mpr ⟨fun v hv => (h v hv).imp_right (List.mem_append_left ms),
    fun v hv => (h' v hv).imp_right (List.mem_append_right ls)⟩

/-- The order of what is loaded does not matter. -/
theorem swap (h : AllFrom ls (vs ++ ws)) : AllFrom ls (ws ++ vs) :=
  List.forall_mem_append.mpr (List.forall_mem_append.mp h).symm

/-- A value that is no array may be loaded beside the literals. -/
theorem scalar {v : Value} (hv : v.kind ≠ .array) : AllFrom [] [some v] :=
  List.forall_mem_singleton.mpr (.scalar hv)

/-- What comes from no literals may be loaded behind what comes from some. -/
theorem also (h : AllFrom ls vs) (h' : AllFrom [] ws) : AllFrom ls (vs ++ ws) := by
  have happend := h.append h'
  rwa [List.append_nil] at happend

/-- The constants for the arguments that a call leaves out are no arrays. -/
theorem missing (functions : List Function) (name : Bytes) (k : Nat) :
    AllFrom [] (missingArguments functions name k) := by
  unfold missingArguments
  intro v hv
  split at hv
  · obtain rfl := List.eq_of_mem_replicate hv
    exact .scalar (by decide)
  · cases hv

end AllFrom

section

variable (functions : List Function)

mutual

/-- An expression loads its literals and values that are no arrays. -/
theorem Expr.allFrom (e : Expr Cell) : AllFrom e.literals (e.loads functions) := by
  match e with
  | .absent => exact List.forall_mem_nil _
  | .literal _ v => exact List.forall_mem_singleton.mpr (.inr List.mem_cons_self)
  | .load _ _ => exact List.forall_mem_nil _
  | .element _ _ row col => exact row.allFrom.append col.allFrom
  | .newArray _ rows cols fill =>
    -- An array that is not told what to hold is filled with false, which is no array.
    have hfill : AllFrom [fill] [some (fill.getD (.boolean false))] := by
      cases fill with
      | none => exact List.forall_mem_singleton.mpr (.scalar nofun)
      | some v => exact List.forall_mem_singleton.mpr (.inr List.mem_cons_self)
    rw [Expr.literals, List.append_assoc]
    exact rows.allFrom.append (cols.allFrom.append hfill)
  | .call _ name args => exact (Expr.argumentsAllFrom args).also (.missing functions name _)
  | .binary _ _ left right => exact left.allFrom.append right.allFrom
  | .negation _ operand => exact operand.allFrom

/-- The arguments of a call load their literals and values that are no arrays. -/
theorem Expr.argumentsAllFrom (es : List (Expr Cell)) :
    AllFrom (Expr.literalsAll es) (Expr.argumentLoads functions es) := by
  match es with
  | [] => exact List.forall_mem_nil _
  | e :: es => exact (e.allFrom.append (Expr.argumentsAllFrom es)).swap

end

mutual

/-- A statement loads its literals and values that are no arrays. -/
theorem Stmt.allFrom (s : Stmt Cell) : AllFrom s.literals (s.loads functions) := by
  match s with
  | .absent => exact List.forall_mem_nil _
  | .block _ body => exact Stmt.allAllFrom body
  | .declare _ _ value => exact value.allFrom functions
  | .assign _ _ value => exact value.allFrom functions
  | .assignElement _ _ row col value =>
    rw [Stmt.literals, List.append_assoc]
    exact (row.allFrom functions).append ((col.allFrom functions).append (value.allFrom functions))
  | .branch _ cond yes no =>
    rw [Stmt.literals, List.append_assoc]
    exact (cond.allFrom functions).append (yes.allFrom.append no.allFrom)
  | .whileLoop _ cond body => exact (cond.allFrom functions).append body.allFrom
  | .countLoop _ _ count body =>
    have hbody := body.allFrom.also (.scalar (v := .integer 1) (by decide))
    exact (((count.allFrom functions).append hbody).also (.scalar (by decide))).swap
  | .leave _ => exact List.forall_mem_nil _
  | .giveBack _ value =>
    unfold Stmt.loads
    split
    · exact List.forall_mem_singleton.mpr (.scalar (by decide))
    · exact value.allFrom functions
  | .define _ _ _ body => exact body.allFrom.also (.scalar (by decide))
  | .perform _ name args =>
    exact (Expr.argumentsAllFrom functions args).also (.missing functions name _)

/-- Statements in sequence load their literals and values that are no arrays. -/
theorem Stmt.allAllFrom (ss : List (Stmt Cell)) :
    AllFrom (Stmt.literalsAll ss) (Stmt.allLoads functions ss) := by
  match ss with
  | [] => exact List.forall_mem_nil _
  | s :: ss => exact s.allFrom.append (Stmt.allAllFrom ss)

end

end

/-- The constants of a program that compiles are no arrays or literals of the tree, and no array is
entered twice. -/
theorem compile_origin (h : compile t imports = .ok p) :
    (∀ e ∈ p.constants.toList, Cell.FromLiterals t.literals e) ∧
      p.constants.toList.Pairwise Cell.DistinctArrays := by
  rw [compile_pool h]
  refine ⟨fun e he => ?_, Pool.distinctArrays _⟩
  have hscalar : ∀ v ∈ Pool.seeds, v.kind ≠ .array := by decide
  rcases Pool.mem_addAll he with he | he
  · rw [Pool.initial_entries] at he
    obtain ⟨v, hv, rfl⟩ := List.mem_map.mp he
    exact .scalar (hscalar v hv)
  · exact (Stmt.allAllFrom t.functions t.body).also (.scalar (by decide)) e he

/-! ## Operations -/

/-- Linking calls leaves defined operations. -/
theorem linkCalls_valid {symbols : Symbols} {code out : List Instruction}
    (h : linkCalls symbols code = .ok out) (hvalid : ∀ i ∈ code, i.op.isValid = true) :
    ∀ i ∈ out, i.op.isValid = true := by
  induction code generalizing out with
  | nil =>
    cases h
    exact List.forall_mem_nil _
  | cons i rest ih =>
    obtain ⟨hi, hrest⟩ := List.forall_mem_cons.mp hvalid
    obtain ⟨there, hthere, rfl, hcall⟩ := linkCalls_cons h
    refine List.forall_mem_append.mpr ⟨?_, ih hthere hrest⟩
    by_cases hop : i.op = .call
    · obtain ⟨f, -, -, -, hhost | hown⟩ := linkCall_eq_ok (hcall hop)
      · rw [hhost.2]
        exact List.forall_mem_singleton.mpr rfl
      · rw [hown.2.2]
        refine List.forall_mem_append.mpr ⟨fun j hj => ?_, List.forall_mem_singleton.mpr hi⟩
        obtain rfl := List.eq_of_mem_replicate hj
        rfl
    · rw [linkedHead, if_neg hop]
      split
      · exact List.forall_mem_nil _
      · exact List.forall_mem_singleton.mpr hi

/-- Linking labels leaves defined operations. -/
theorem linkLabels_valid {code out : List Instruction} (h : linkLabels code = .ok out)
    (hvalid : ∀ i ∈ code, i.op.isValid = true) : ∀ i ∈ out, i.op.isValid = true := by
  obtain ⟨places, -, hmap⟩ := linkLabels_eq_ok h
  obtain ⟨hlength, hlinked⟩ := mapM_eq_ok hmap
  intro o ho
  obtain ⟨k, hk⟩ := List.mem_iff_getElem?.mp ho
  have hlt : k < (mergeMarkers [] code).1.length := by
    rw [← hlength]
    exact (List.getElem?_eq_some_iff.mp hk).1
  obtain ⟨o', ho', hresolve⟩ := hlinked k _ (List.getElem?_eq_getElem hlt)
  obtain rfl : o' = o := Option.some.inj (ho'.symm.trans hk)
  obtain ⟨x, hx, hop, -⟩ := mergeMarkers_mem code _ (List.getElem_mem hlt)
  rw [(resolveJump_eq_ok hresolve).1, ← hop]
  exact hvalid x hx

/-- The operations of a program that compiles are defined. -/
theorem compile_valid (h : compile t imports = .ok p) :
    ∀ i ∈ p.code.toList, i.op.isValid = true := by
  obtain ⟨c, expanded, out, hgenerate, hcalls, hlabels, rfl⟩ := compile_eq_ok h
  obtain ⟨τ, -, hemits⟩ := Tree.generate_hosted hgenerate
  exact linkLabels_valid hlabels (linkCalls_valid hcalls hemits.valid)

end StackScript
