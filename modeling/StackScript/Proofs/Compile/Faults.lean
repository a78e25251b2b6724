import StackScript.Proofs.Generate.Assembly
import StackScript.Proofs.Generate.Scoping
import StackScript.Proofs.Image.Loading
import StackScript.Proofs.Link.Progress

/-!
# Why trees are not compiled

A tree that was read has no gaps, so generating its code fails only for what the program does. In
the generated code every label but those of functions is placed once, and every jump goes to a label
of the code, so linking fails only for a call that does not suit its function or for a name that two
functions have. What is compiled can be written out.
-/

namespace StackScript

variable {c : Compilation} {e : CompileError} {K : List Cell} {imports : List Import}
  {code : List Instruction} {t : Tree Cell}

/-- A fault of a program: it names a variable or a function that it has not declared, leaves a loop
where there is none, passes a wrong number of arguments, or declares a function twice. -/
inductive BuildError.OfProgram (t : Tree Cell) : BuildError → Prop
  | variable (pos : Option Position) (name : Bytes) :
      OfProgram t (.compile ⟨pos, .variableNotFound name⟩)
  | leave (pos : Option Position) : OfProgram t (.compile ⟨pos, .breakOutsideLoop⟩)
  | function (name : Bytes) : OfProgram t (.link (.functionNotFound name))
  | tooFew (name : Bytes) (minimum argc : Int) :
      OfProgram t (.link (.tooFewArguments name minimum argc))
  | tooMany (name : Bytes) (declared argc : Int) :
      OfProgram t (.link (.tooManyArguments name declared argc))
  | limit (name : Bytes) (argc : Int) : OfProgram t (.link (.argumentLimit name argc))
  | twice (name : Bytes) (h : 2 ≤ (t.functions.map Function.name).count name) :
      OfProgram t (.link (.duplicateLabel (functionLabel name)))

/-- Whether code is generated for a tree, and all of its calls suit the functions that they name. -/
def Tree.callsFit (t : Tree Cell) (imports : List Import) : Bool :=
  match t.generate (({} : Compilation).declareImports imports) with
  | .ok _ c => (linkCalls c.symbols c.code.toList).isOk
  | .error _ _ => false

/-- A fault of a program is the program's. -/
theorem BuildError.OfProgram.of_compile (h : e.fault.isOfProgram = true) :
    OfProgram t (.compile e) := by
  obtain ⟨pos, fault⟩ := e
  cases fault with
  | variableNotFound name => exact .variable pos name
  | breakOutsideLoop => exact .leave pos
  | _ => cases h

/-- A fault of a call is the program's. -/
theorem BuildError.OfProgram.of_call {e : LinkError} (h : e.isOfCall = true) :
    OfProgram t (.link e) := by
  cases e with
  | functionNotFound name => exact .function name
  | tooFewArguments name minimum argc => exact .tooFew name minimum argc
  | argumentLimit name argc => exact .limit name argc
  | tooManyArguments name declared argc => exact .tooMany name declared argc
  | _ => cases h

/-- Functions of different names have different labels. -/
theorem functionLabel_injective : Function.Injective functionLabel := by
  intro a b h
  exact List.append_cancel_left (List.append_cancel_right h)

/-! ## Linking the code of a tree -/

section Generated

variable {t : Tree Cell} {imports : List Import} {c : Compilation} {expanded : List Instruction}

/-- A label of a function occurs in code as often as the tree declares functions of its name. -/
theorem count_functionLabel (h : t.Emits K code) (name : Bytes) :
    (labelsOf code).count (functionLabel name) = (t.functions.map Function.name).count name := by
  have hlabel : isFunctionLabel (functionLabel name) = true := rfl
  calc (labelsOf code).count (functionLabel name)
      = (entriesOf code).count (functionLabel name) := (List.count_filter hlabel).symm
    _ = ((t.functions.map Function.name).map functionLabel).count (functionLabel name) := by
        rw [h.entries, List.map_map]
        rfl
    _ = (t.functions.map Function.name).count name :=
        List.count_map_of_injective _ _ functionLabel_injective _

/-- A label of a function in code is that of a function of the tree. -/
theorem exists_functionLabel (h : t.Emits K code) {l : Bytes} (hl : isFunctionLabel l = true)
    (hmem : l ∈ labelsOf code) : ∃ name, l = functionLabel name := by
  have hentry : l ∈ entriesOf code := List.mem_filter.mpr ⟨hmem, hl⟩
  rw [h.entries] at hentry
  obtain ⟨d, -, rfl⟩ := List.mem_map.mp hentry
  exact ⟨d.name, rfl⟩

/-- The labels of code are distinct if no two functions have one name, and only then. -/
theorem labels_nodup_iff (h : t.Emits K code) :
    (labelsOf code).Nodup ↔ (t.functions.map Function.name).Nodup := by
  constructor
  · intro hlabels
    rw [List.nodup_iff_count]
    intro name
    rw [← count_functionLabel h]
    exact List.nodup_iff_count.mp hlabels _
  · intro hnames
    rw [List.nodup_iff_count]
    intro l
    by_cases hmem : l ∈ labelsOf code
    · cases hl : isFunctionLabel l with
      | true =>
        obtain ⟨name, rfl⟩ := exists_functionLabel h hl hmem
        rw [count_functionLabel h]
        exact List.nodup_iff_count.mp hnames name
      | false =>
        rw [← List.count_filter (p := fun l => !isFunctionLabel l) (by simp [hl])]
        exact List.nodup_iff_count.mp h.wellMarked.once l
    · rw [List.count_eq_zero.mpr hmem]
      exact Nat.zero_le 1

/-- A function that calls find, and that is not the host's, is declared by the tree. -/
theorem functionLabel_mem {τ : Progress}
    (hadvances : Advances { symbols := Symbols.hosted imports } c code t.functions t.loads τ)
    (hemits : t.Emits K code) {name : Bytes} {f : Signature}
    (hf : c.symbols.function? name = some f) (hhost : f.isHost = false) :
    functionLabel name ∈ labelsOf code := by
  rw [function?_eq hadvances] at hf
  cases hd : functionNamed? t.functions name with
  | none =>
    -- The name is one of the host's functions then.
    rw [Symbols.function?_defineAll_of_none hd] at hf
    have hhosted := (Symbols.hosted_allHosted imports).host f (List.mem_of_find?_eq_some hf)
    rw [hhosted.1] at hhost
    cases hhost
  | some d =>
    obtain ⟨hmem, rfl⟩ := functionNamed?_eq_some hd
    have hentry : functionLabel d.name ∈ entriesOf code := by
      rw [hemits.entries]
      exact List.mem_map.mpr ⟨d, hmem, rfl⟩
    exact (List.mem_filter.mp hentry).1

variable (hgenerate : t.generate ({ symbols := Symbols.hosted imports } : Compilation) = .ok () c)
  (hcalls : linkCalls c.symbols c.code.toList = .ok expanded)
include hgenerate hcalls

/-- The labels of a tree whose functions have different names are linked. -/
theorem exists_linkLabels_of_nodup (hnames : (t.functions.map Function.name).Nodup) :
    ∃ out, linkLabels expanded = .ok out := by
  obtain ⟨τ, hadvances, hemits⟩ := Tree.generate_hosted hgenerate
  have haims := hemits.aims
  refine hemits.wellMarked.exists_linkLabels hcalls ((labels_nodup_iff hemits).mpr hnames)
    (hemits.wellMarked.targets hcalls ?_ ?_)
  · intro i hi hjump hop
    exact (haims i hi hjump).resolve_left fun h => hop h.1
  · intro i hi hop f hf hhost
    rcases haims i hi (by rw [hop]; rfl) with ⟨-, htarget⟩ | hmem
    · rw [htarget]
      exact functionLabel_mem hadvances hemits hf hhost
    · exact hmem

/-- The labels of a tree that declares two functions of one name are not linked. -/
theorem linkLabels_of_not_nodup (hnames : ¬ (t.functions.map Function.name).Nodup) :
    ∃ name, 2 ≤ (t.functions.map Function.name).count name ∧
      linkLabels expanded = .error (.duplicateLabel (functionLabel name)) := by
  obtain ⟨τ, hadvances, hemits⟩ := Tree.generate_hosted hgenerate
  obtain ⟨l, hfail, hl, hcount⟩ := hemits.wellMarked.linkLabels_duplicate hcalls
    fun hnodup => hnames ((labels_nodup_iff hemits).mp hnodup)
  obtain ⟨name, rfl⟩ := exists_functionLabel hemits hl
    (List.count_pos_iff.mp (Nat.lt_of_lt_of_le Nat.zero_lt_two hcount))
  rw [count_functionLabel hemits] at hcount
  exact ⟨name, hcount, hfail⟩

end Generated

/-! ## Compiling what was read -/

/-- A fault of generation is one of compiling. -/
theorem compile_of_generate_error
    (h : t.generate { symbols := Symbols.hosted imports } = .error e c) :
    compile t imports = .error (.compile e) := by
  change Compilation.build { symbols := Symbols.hosted imports } t = _
  unfold Compilation.build
  rw [h]

/-- Once code is generated, compiling is linking its calls and then its labels. -/
theorem compile_of_generate_ok (h : t.generate { symbols := Symbols.hosted imports } = .ok () c) :
    compile t imports = ((linkCalls c.symbols c.code.toList >>= linkLabels).map fun out =>
      { constants := c.pool.entries, code := out.toArray }).mapError .link := by
  change Compilation.build { symbols := Symbols.hosted imports } t = _
  unfold Compilation.build Compilation.link Compilation.linkedCode
  rw [h]
  cases hcalls : linkCalls c.symbols c.code.toList with
  | error e => simp [hcalls, bind, Except.bind, Except.map, Except.mapError]
  | ok expanded =>
    cases hlabels : linkLabels expanded with
    | error e => simp [hcalls, hlabels, bind, Except.bind, Except.map, Except.mapError]
    | ok out => simp [hcalls, hlabels, bind, Except.bind, Except.map, Except.mapError, pure,
        Except.pure]

/-- Only faults of the program keep a filled tree from being compiled. -/
theorem Tree.Filled.compile_error (h : t.Filled) {e : BuildError}
    (hfail : compile t imports = .error e) : e.OfProgram t := by
  cases hgenerate : t.generate { symbols := Symbols.hosted imports } with
  | error e' c =>
    rw [compile_of_generate_error hgenerate] at hfail
    cases hfail
    exact .of_compile (h.generate hgenerate)
  | ok u c =>
    rw [compile_of_generate_ok hgenerate] at hfail
    cases hcalls : linkCalls c.symbols c.code.toList with
    | error e' =>
      rw [hcalls] at hfail
      cases hfail
      exact .of_call (linkCalls_eq_error hcalls)
    | ok expanded =>
      rw [hcalls] at hfail
      by_cases hnames : (t.functions.map Function.name).Nodup
      · obtain ⟨out, hout⟩ := exists_linkLabels_of_nodup hgenerate hcalls hnames
        simp [hout, bind, Except.bind, Except.map, Except.mapError] at hfail
      · obtain ⟨name, hcount, hlabels⟩ := linkLabels_of_not_nodup hgenerate hcalls hnames
        simp only [hlabels, bind, Except.bind, Except.map, Except.mapError] at hfail
        cases hfail
        exact .twice name hcount

/-- A tree that declares two functions of one name is not compiled, if it comes that far. -/
theorem compile_of_not_nodup (hcalls : t.callsFit imports = true)
    (hnames : ¬ (t.functions.map Function.name).Nodup) :
    ∃ name, compile t imports = .error (.link (.duplicateLabel (functionLabel name))) := by
  unfold Tree.callsFit at hcalls
  split at hcalls
  · rename_i c hgenerate
    cases hlinked : linkCalls c.symbols c.code.toList with
    | error e =>
      rw [hlinked] at hcalls
      cases hcalls
    | ok expanded =>
      obtain ⟨name, -, hlabels⟩ := linkLabels_of_not_nodup hgenerate hlinked hnames
      refine ⟨name, ?_⟩
      rw [compile_of_generate_ok hgenerate, hlinked]
      simp only [hlabels, bind, Except.bind, Except.map, Except.mapError]
  · cases hcalls

/-- A program that was compiled from a tree that was read can be written to a file. -/
theorem Program.exists_bytecode {source : Bytes} {tree : Tree Datum}
    (hread : Tree.read source = .ok tree) {p : Program}
    (hcompile : compile (tree.store .empty).1 imports = .ok p) (loader : Bytes) (now : Instant) :
    ∃ file, p.artifact (tree.store .empty).2 .bytecode loader now = .ok file := by
  have hvalid := compile_valid hcompile
  obtain ⟨data, hdata, -⟩ := compile_constants (Tree.read_shaped hread) hcompile
  have hpayload := Program.encode_eq_ok now hdata hvalid rfl
  unfold Program.artifact
  rw [hpayload]
  exact ⟨_, rfl⟩

/-- A tree that was read is compiled, or the program is at fault; it is if two of its functions have
one name and nothing else is wrong. The program of a tree that is compiled can be listed and
written to a file. -/
theorem compile_of_read {source : Bytes} {tree : Tree Datum} (hread : Tree.read source = .ok tree)
    (imports : List Import) :
    (∀ e, compile (tree.store .empty).1 imports = .error e → e.OfProgram (tree.store .empty).1) ∧
      ((tree.store .empty).1.callsFit imports = true →
        ¬ ((tree.store .empty).1.functions.map Function.name).Nodup →
        ∃ name, compile (tree.store .empty).1 imports =
          .error (.link (.duplicateLabel (functionLabel name)))) ∧
      ∀ p, compile (tree.store .empty).1 imports = .ok p → ∀ loader now,
        (∃ text, p.artifact (tree.store .empty).2 .listing loader now = .ok text) ∧
          ∃ file, p.artifact (tree.store .empty).2 .bytecode loader now = .ok file := by
  refine ⟨?_, ?_, ?_⟩
  · intro e hfail
    exact ((Tree.read_filled hread).store .empty).compile_error hfail
  · exact compile_of_not_nodup
  · intro p hcompile loader now
    exact ⟨⟨_, rfl⟩, Program.exists_bytecode hread hcompile loader now⟩

/-- A tree that declares a function in a function of the same name, and calls it from a loop. -/
def Tree.redeclared : Tree Datum where
  pos := ⟨1, 1⟩
  body :=
    [.define ⟨1, 1⟩ "f" ["x"] (.block ⟨1, 9⟩
        [.define ⟨2, 3⟩ "f" ["x", "y"] (.giveBack ⟨2, 12⟩ (.load ⟨2, 19⟩ "y"))]),
      .whileLoop ⟨4, 1⟩ (.negation ⟨4, 7⟩ (.call ⟨4, 11⟩ "f" [.literal ⟨4, 13⟩ (.integer 1)]))
        (.leave ⟨4, 16⟩)]

/-- The file of the tree. -/
def Tree.redeclaredSource : Bytes :=
  ((Tree.redeclared.store .empty).1.write (Tree.redeclared.store .empty).2).toOption.getD []

/-- A function that is declared twice is told. -/
theorem compile_of_read_redeclared : ∃ tree, Tree.read Tree.redeclaredSource = .ok tree ∧
    ∃ name, compile (tree.store .empty).1 [] =
        .error (.link (.duplicateLabel (functionLabel name))) ∧
      BuildError.OfProgram (tree.store .empty).1
        (.link (.duplicateLabel (functionLabel name))) := by
  have hcheck : (Tree.read Tree.redeclaredSource).toOption.any (fun tree =>
      (tree.store .empty).1.callsFit [] &&
        decide (¬ ((tree.store .empty).1.functions.map Function.name).Nodup)) = true := by
    decide +kernel
  cases hread : Tree.read Tree.redeclaredSource with
  | error e =>
    rw [hread] at hcheck
    cases hcheck
  | ok tree =>
    rw [hread] at hcheck
    obtain ⟨hcalls, hnames⟩ := Bool.and_eq_true_iff.mp hcheck
    obtain ⟨honly, htwice, -⟩ := compile_of_read hread []
    obtain ⟨name, hfail⟩ := htwice hcalls (of_decide_eq_true hnames)
    exact ⟨tree, rfl, name, hfail, honly _ hfail⟩

end StackScript
