import StackScript.Proofs.Compile.Signatures
import StackScript.Proofs.Layout.Placement
import StackScript.Proofs.Link.Places

/-!
# The layout of a compiled program

A program that compiles has a layout: the stream that generation gives is linked, so the code of the
program and of each of its functions stands where the layout says. This is all that is used of
compilation from here on.
-/

namespace StackScript

variable {name : Bytes} {c : Compilation} {imports : List Import} {code : List Instruction}
  {p : Program} {τ : Progress} {t : Tree Cell}

mutual

/-- The code of every function that a statement declares stands at its entry. -/
theorem Stmt.At.function_at {L : Layout} {s : Stmt Cell} {vars : List Bytes} {stop : Option Nat}
    {hidden : List Nat} {a b : Nat} (h : s.At L vars stop hidden a b) :
    ∀ d ∈ s.functions, ∃ vars stop c, L.FunctionAt d vars stop (L.entry d.name) c := by
  match s with
  | .absent | .declare .. | .assign .. | .assignElement .. | .leave .. | .giveBack ..
  | .perform .. => exact List.forall_mem_nil _
  | .block _ body => exact Stmt.AllAt.function_at h
  | .branch _ cond yes no =>
    obtain ⟨m, n, -, -, hy, -, hn⟩ := h
    intro d hd
    rcases List.mem_append.mp hd with hd | hd
    · exact hy.function_at d hd
    · exact hn.function_at d hd
  | .whileLoop _ cond body =>
    obtain ⟨m, n, -, -, hb, -⟩ := h
    exact hb.function_at
  | .countLoop _ index count body =>
    obtain ⟨k, m, n, -, -, -, -, -, -, -, hb, -⟩ := h
    exact hb.function_at
  | .define _ name params body =>
    obtain ⟨vars, m, -, hentry, hprologue, hb, hr⟩ := h
    intro d hd
    rcases List.mem_cons.mp hd with rfl | hd
    · -- The layout has the entry of this name here.
      exact ⟨vars, stop, b, m, hentry ▸ hprologue, hentry ▸ hb, hr⟩
    · exact hb.function_at d hd

/-- The code of every function that statements in sequence declare stands at its entry. -/
theorem Stmt.AllAt.function_at {L : Layout} {ss : List (Stmt Cell)} {vars : List Bytes}
    {stop : Option Nat} {hidden : List Nat} {a b : Nat} (h : Stmt.AllAt L ss vars stop hidden a b) :
    ∀ d ∈ Stmt.allFunctions ss, ∃ vars stop c, L.FunctionAt d vars stop (L.entry d.name) c := by
  match ss with
  | [] => exact List.forall_mem_nil _
  | s :: ss =>
    obtain ⟨m, hs, hr⟩ := h
    intro d hd
    rcases List.mem_append.mp hd with hd | hd
    · exact hs.function_at d hd
    · exact Stmt.AllAt.function_at hr d hd

end

/-- A tree that calls the given functions of the host was compiled to the program of a layout. -/
structure Compiled (t : Tree Cell) (imports : List Import) (L : Layout) : Prop where
  /-- The functions are those of the tree. -/
  functions : L.functions = t.functions
  /-- The names of functions are distinct. -/
  names : (t.functions.map Function.name).Nodup
  /-- The code of the program is where the layout says. -/
  program : ∃ vars, L.ProgramAt t vars
  /-- The first constant is false. -/
  constant : L.program.constants[Pool.falseIndex]? = some (some (.boolean false))
  /-- The functions of the host have the indices that their declarations give. -/
  native : L.native = fun name => ((Symbols.hosted imports).function? name).map Signature.dispatch
  /-- The layout counts on variables that are declared once if the tree declares them so. -/
  once : t.declaresOnce = true → t.regular = true → L.once

namespace Compiled

variable {t : Tree Cell} {imports : List Import} {L : Layout} (h : Compiled t imports L)
include h

/-- The code of every function stands at its entry. -/
theorem function_at {d : Function} (hd : functionNamed? L.functions name = some d) :
    d ∈ t.functions ∧ ∃ vars stop b, L.FunctionAt d vars stop (L.entry name) b := by
  obtain ⟨hmem, rfl⟩ := functionNamed?_eq_some hd
  rw [h.functions] at hmem
  obtain ⟨vars, m, -, hbody, -⟩ := h.program
  exact ⟨hmem, Stmt.AllAt.function_at hbody d hmem⟩

/-- The index of a function of the host is less than the number of declarations. -/
theorem native_lt {i : Nat} (hi : L.native name = some i) : i < imports.length := by
  rw [h.native] at hi
  obtain ⟨f, hf, rfl⟩ := Option.map_eq_some_iff.mp hi
  have hall := Symbols.hosted_allHosted imports
  exact Nat.lt_of_lt_of_le (hall.host f (List.mem_of_find?_eq_some hf)).2 hall.length

end Compiled

/-- The parts of a compilation that succeeds. -/
theorem compile_eq_ok (h : compile t imports = .ok p) :
    ∃ c expanded out, t.generate ({ symbols := Symbols.hosted imports } : Compilation) = .ok () c ∧
      linkCalls c.symbols c.code.toList = .ok expanded ∧ linkLabels expanded = .ok out ∧
      p = { constants := c.pool.entries, code := out.toArray } := by
  unfold compile Compilation.build at h
  split at h
  · cases h
  · rename_i c hgenerate
    split at h
    · cases h
    · rename_i p' c' hlink
      cases h
      obtain ⟨expanded, out, hcalls, hlabels, hp⟩ := Compilation.link_eq_ok hlink
      exact ⟨c, expanded, out, hgenerate, hcalls, hlabels, hp⟩

/-- Distinct labels tell where an instruction stands. -/
theorem takeWhile_label {pre post : List Instruction} {y : Instruction} {l : Bytes}
    (hnodup : (labelsOf code).Nodup) (hcode : code = pre ++ y :: post) (hy : y.label = l)
    (hl : l ≠ []) : (code.takeWhile fun i => i.label != l) = pre := by
  have hpre : ∀ i ∈ pre, (i.label != l) = true := by
    intro i hi
    rw [bne_iff_ne]
    intro he
    rw [hcode, labelsOf_append, labelsOf_cons_of_label (hy ▸ hl), List.nodup_append] at hnodup
    exact hnodup.2.2 l (mem_labelsOf.mpr ⟨hl, i, hi, he⟩) l (by simp [hy]) rfl
  rw [hcode, List.takeWhile_append_of_pos hpre, List.takeWhile_cons_of_neg (by simp [hy]),
    List.append_nil]

/-- What the functions of a program mean to calls in it. -/
theorem function?_eq
    (h : Advances { symbols := Symbols.hosted imports } c code t.functions t.loads τ)
    (name : Bytes) :
    c.symbols.function? name = ((Symbols.hosted imports).defineAll t.functions).function? name := by
  unfold Symbols.function?
  rw [h.functions]

/-- The layout of the program that a compilation gives: `code` is its code before linking and
`linked` after. -/
def Compilation.layout (c : Compilation) (t : Tree Cell) (imports : List Import)
    (code linked : List Instruction) : Layout where
  program := { constants := c.pool.entries, code := linked.toArray }
  functions := t.functions
  entry name := linkedPlace c.symbols (code.takeWhile fun i => i.label != functionLabel name)
  native name := ((Symbols.hosted imports).function? name).map Signature.dispatch
  once := t.declaresOnce = true ∧ t.regular = true

/-- The pool of a compilation is not much longer than the code. -/
theorem Advances.pool_lt {c' : Compilation} {linked : List Instruction} {fs : List Function}
    {vs : List Cell} {symbols : Symbols} (h : Advances c c' code fs vs τ)
    (hinitial : c.pool = Pool.initial) (hlinked : Linked symbols code linked.toArray)
    (hfits : linked.toArray.size < 0x8000000000000000) :
    c'.pool.entries.size < 0x10000000000000000 := by
  have hsize := h.pool_size
  have hcount := countP_le_linkedPlace symbols (by decide : Opcode.constant ≠ .noop ∧
    Opcode.constant ≠ .call) code
  have hseeds : Pool.initial.entries.size = 12 := by
    rw [← Array.length_toList, Pool.initial_entries]
    rfl
  rw [← hlinked.size] at hcount
  rw [hinitial, hseeds] at hsize
  omega

section Compilation

variable {t : Tree Cell} {imports : List Import} {c : Compilation}
  {code linked : List Instruction} {τ : Progress}
  (hadvances : Advances { symbols := Symbols.hosted imports } c code t.functions t.loads τ)
  (hemits : t.Emits c.pool.entries.toList code) (hnodup : (labelsOf code).Nodup)
  (hlinked : Linked c.symbols code linked.toArray)
  (hfits : linked.toArray.size < 0x8000000000000000)

include hemits hnodup in
/-- Functions with one label would have one name. -/
theorem names_nodup : (t.functions.map Function.name).Nodup := by
  have hentries : (entriesOf code).Nodup := hnodup.filter _
  rw [hemits.entries] at hentries
  exact List.pairwise_map.mpr ((List.pairwise_map.mp hentries).imp fun hne he =>
    hne (congrArg functionLabel he))

include hadvances hemits hnodup hlinked hfits

/-- The layout places the code. -/
theorem layout_placed : Placed (c.layout t imports code linked) c.symbols code where
  linked := hlinked
  fits := hfits
  pool := hadvances.pool_lt rfl hlinked hfits
  entry hsplit hy := congrArg (linkedPlace c.symbols) (takeWhile_label hnodup hsplit hy nofun)
  declared := by
    intro name d f (hd : functionNamed? t.functions name = some d) hf
    -- The names of functions are distinct, so that the signature is that of this declaration.
    rw [function?_eq hadvances] at hf
    obtain ⟨i, hi⟩ := Symbols.function?_defineAll_of_some hd (names_nodup hemits hnodup)
      (Symbols.hosted imports)
    rw [hi] at hf
    cases hf
    refine ⟨rfl, rfl, ?_⟩
    have hmem : functionLabel name ∈ entriesOf code := by
      obtain ⟨hmem, rfl⟩ := functionNamed?_eq_some hd
      rw [hemits.entries]
      exact List.mem_map.mpr ⟨d, hmem, rfl⟩
    obtain ⟨-, y, hy, hlabel⟩ := mem_labelsOf.mp (List.mem_filter.mp hmem).1
    obtain ⟨pre, post, hsplit⟩ := List.append_of_mem hy
    exact ⟨pre, y, post, hsplit, hlabel⟩
  imported := by
    intro name f (hnone : functionNamed? t.functions name = none) hf
    rw [function?_eq hadvances, Symbols.function?_defineAll_of_none hnone] at hf
    refine ⟨((Symbols.hosted_allHosted imports).host f (List.mem_of_find?_eq_some hf)).1, ?_⟩
    exact congrArg (Option.map Signature.dispatch) hf

/-- The code of the program stands where the layout says. -/
theorem layout_programAt : ∃ vars, (c.layout t imports code linked).ProgramAt t vars := by
  have hP := layout_placed hadvances hemits hnodup hlinked hfits
  have hsize := hlinked.size
  obtain ⟨b, r, ρ, hb, hr, hcode⟩ := hemits
  obtain ⟨hprologue, hsmall⟩ := hP.prologue_at rfl (Stmt.EmitsAll.declares hb) [] r
    (by simp [hcode, storesOf])
  have hin : Within c.symbols code ρ.slots none none [] ⟨0, []⟩ :=
    { small := hsmall
      stop := by rintro l ⟨⟩
      hidden := List.forall_mem_nil _ }
  have hbody := hP.block_lays t.pos t.body hb List.prefix_rfl hin [] (fun ho => by
      obtain ⟨honce, hregular⟩ := ho
      simp only [Tree.declaresOnce, Tree.regular, Bool.and_eq_true, List.all_eq_true]
        at honce hregular
      refine ⟨honce.1, hregular.1, List.forall_mem_nil _, fun d hd => ?_⟩
      exact ⟨of_decide_eq_true (honce.2 d hd).1, (honce.2 d hd).2, (hregular.2 d hd).2⟩)
    [Instruction.on .frame ρ.slots.length] r hcode
  have hend := hP.false_at hr ([Instruction.on .frame ρ.slots.length] ++ b) [] (by simp [hcode])
  rw [hcode] at hsize
  simp only [linkedPlace_append, linkedPlace_on c.symbols .frame ρ.slots.length (by decide),
    linkedPlace_nil] at hprologue hbody hend hsize
  -- The code ends with the two instructions that give back false.
  rw [← hsize] at hend
  exact ⟨ρ.slots, _, hprologue, hbody, hend⟩

end Compilation

/-- What a tree is generated as when only the imports are declared. -/
theorem Tree.generate_hosted
    (h : t.generate ({ symbols := Symbols.hosted imports } : Compilation) = .ok () c) :
    ∃ τ, Advances { symbols := Symbols.hosted imports } c c.code.toList t.functions t.loads τ ∧
      t.Emits c.pool.entries.toList c.code.toList := by
  obtain ⟨code, τ, hadvances, hemits⟩ := t.generate_advances (Symbols.hosted_loops imports) rfl h
  obtain rfl : c.code.toList = code := by simpa using hadvances.code_eq
  exact ⟨τ, hadvances, hemits _ List.prefix_rfl⟩

/-- The constants of a compiled program: those of every pool, and what the tree loads in order. -/
theorem compile_pool (h : compile t imports = .ok p) :
    p.constants = (Pool.initial.addAll t.loads).entries := by
  obtain ⟨c, expanded, out, hgenerate, -, -, rfl⟩ := compile_eq_ok h
  obtain ⟨τ, hadvances, -⟩ := Tree.generate_hosted hgenerate
  exact congrArg Pool.entries (hadvances.entered List.prefix_rfl)

/-- A program that compiles, and whose places are numbers of 64 bits, has a layout. -/
theorem compile_layout (h : compile t imports = .ok p) (hfits : p.code.size < 0x8000000000000000) :
    ∃ L : Layout, L.program = p ∧ Compiled t imports L := by
  obtain ⟨c, expanded, out, hgenerate, hcalls, hlabels, rfl⟩ := compile_eq_ok h
  obtain ⟨τ, hadvances, hemits⟩ := Tree.generate_hosted hgenerate
  have hlinked := hemits.wellMarked.linked hcalls hlabels
  have hnodup := hemits.wellMarked.labels_nodup hcalls hlabels
  refine ⟨c.layout t imports c.code.toList out, rfl, rfl, names_nodup hemits hnodup,
    layout_programAt hadvances hemits hnodup hlinked hfits, ?_, rfl, And.intro⟩
  obtain ⟨rest, hrest⟩ := hadvances.pool
  change c.pool.entries[Pool.falseIndex]? = _
  rw [← Array.getElem?_toList, ← hrest]
  change (Pool.initial.entries.toList ++ rest)[0]? = _
  rw [Pool.initial_entries]
  rfl

/-- A tree is compiled to a program with some property if computing says so. -/
theorem exists_compile (t : Tree Cell) (imports : List Import) (post : Program → Prop)
    [DecidablePred post] (h : (compile t imports).toOption.any (fun p => decide (post p)) = true) :
    ∃ p, compile t imports = .ok p ∧ post p := by
  cases hp : compile t imports with
  | error e =>
    rw [hp] at h
    cases h
  | ok p =>
    rw [hp] at h
    exact ⟨p, rfl, of_decide_eq_true h⟩

end StackScript
