import StackScript.Proofs.Compile.Imports
import StackScript.Proofs.Safety.Binding

/-!
# Dispatch to the host

The file that is written for a table of functions of the host gives each its place in the table as
its index. A call of one is linked to an instruction that holds the index, and the machine hands the
arguments of the call, in their order in the source, to the function at that place of the table.
-/

namespace StackScript

/-- A file cannot be loaded exactly if one of its lines cannot be read. -/
theorem Compilation.loadImports_error_iff (c : Compilation) (s : Bytes) :
    (∃ e c', loadImports s c = .error e c') ↔ ∃ line ∈ Import.lines s, Import.Rejected line := by
  rw [← Import.parse_error_iff]
  unfold loadImports
  cases Import.parse s with
  | ok imports =>
    refine ⟨?_, ?_⟩
    · rintro ⟨e, c', ⟨⟩⟩
    · rintro ⟨e, ⟨⟩⟩
  | error e => exact ⟨fun _ => ⟨e, rfl⟩, fun _ => ⟨e, c, rfl⟩⟩

/-- A file that cannot be loaded declares nothing. -/
theorem Compilation.loadImports_error {c c' : Compilation} {s : Bytes} {e : ImportError}
    (h : loadImports s c = .error e c') : c' = c := by
  unfold loadImports at h
  cases hparse : Import.parse s with
  | ok imports =>
    rw [hparse] at h
    cases h
  | error e' =>
    rw [hparse] at h
    cases h
    rfl

/-- A file that can be read declares its functions. -/
theorem Compilation.loadImports_of_parse {s : Bytes} {imports : List Import}
    (h : Import.parse s = .ok imports) (c : Compilation) :
    loadImports s c = .ok () (c.declareImports imports) := by
  unfold loadImports
  rw [h]
  rfl

/-- From a state behind the arguments of a call, which began in state `s`, a function of the host is
run on them. Its result is pushed in place of the arguments, and its failure is reported. -/
def HandsOver (p : Program) (hosts : Array HostFunction) (f : HostFunction) (args : List Cell)
    (s s' : State) : Prop :=
  p.next hosts s' =
    match f.run args s'.world with
    | .ok v w => some (.ok () ⟨s'.place + 1, v :: s.stack, s.frame, s.callers, w⟩)
    | .error e w => some (.error (.host f.name e) ⟨s'.place, s.stack, s.frame, s.callers, w⟩)

/-- Calls of a function of the host with the given arguments are calls of the function at an index
of a table. -/
structure Dispatches (L : Layout) (hosts : Array HostFunction) (i : Nat) (f : HostFunction)
    (args : List (Expr Cell)) : Prop where
  /-- The call has code. -/
  site : HasSite L (f.name, args)
  /-- Behind the arguments there is an instruction that holds their number and the index. -/
  instruction : ∀ {vars a m b}, CallSite L vars f.name args a m b →
    b = m + 1 ∧ ∃ o, L.program.code[m]? = some o ∧ o.op = .callHost ∧
      HostCall.unpack o.operand = ⟨args.length, i⟩
  /-- A run that begins at the call, in whatever state, evaluates the arguments before it does
  anything else. Once they are evaluated their values are handed over, in the order of the source,
  whatever the function makes of them. -/
  runs : ∀ {vars a m b}, CallSite L vars f.name args a m b → ∀ s : State, s.place = a →
    EvaluatesAll L hosts vars args a m s ∧
      ∀ vs r, Evaluated L hosts vars args vs s r → r.place = m →
        vs.length = args.length ∧ HandsOver L.program hosts f vs s r

section Table

variable {table : List HostFunction} (hnames : (table.map HostFunction.name).Nodup)
include hnames

/-- The functions of a table get their places in it as indices. -/
theorem hosted_table_functions : (Symbols.hosted (table.map HostFunction.toImport)).functions =
    table.mapIdx fun i f => ⟨f.name, hostArity, f.minimum, i⟩ := by
  rw [Symbols.hosted_functions (by rwa [List.map_map])]
  exact List.ext_getElem? fun i => by simp [HostFunction.toImport, Function.comp_def]

/-- A function of a table is found by its name. -/
theorem hosted_table_function? {i : Nat} {f : HostFunction} (hf : table[i]? = some f) :
    (Symbols.hosted (table.map HostFunction.toImport)).function? f.name =
      some ⟨f.name, hostArity, f.minimum, i⟩ := by
  unfold Symbols.function?
  rw [hosted_table_functions hnames, List.find?_eq_some_iff_getElem]
  obtain ⟨hi, rfl⟩ := List.getElem?_eq_some_iff.mp hf
  refine ⟨by simp, i, by simpa using hi, by simp, fun j hj => ?_⟩
  have hne := (List.pairwise_iff_getElem.mp hnames) j i (by simp; omega) (by simpa using hi) hj
  simpa using hne

variable {t : Tree Cell} {i : Nat} {f : HostFunction} (hf : table[i]? = some f)
  (hi : i < 0x400000) (hnew : functionNamed? t.functions f.name = none)
include hf hi hnew

/-- A call with an allowed number of arguments is linked to a call of the host. -/
theorem linkCall_host {c : Compilation}
    (hgenerate : t.generate
      (({} : Compilation).declareImports (table.map HostFunction.toImport)) = .ok () c)
    (hnonneg : 0 ≤ f.minimum) {call : Instruction} (hcallee : call.callee = f.name)
    (hleast : f.minimum ≤ call.argc) (hmost : call.argc ≤ 1023) :
    ∃ o, linkCall c.symbols call = .ok [o] ∧ o.op = .callHost ∧
      HostCall.unpack o.operand = ⟨call.argc.toNat, i⟩ := by
  have hgenerate : t.generate
      ({ symbols := Symbols.hosted (table.map HostFunction.toImport) } : Compilation) =
        .ok () c := hgenerate
  obtain ⟨code, τ, hadvances, -⟩ := t.generate_advances (Symbols.hosted_loops _) rfl hgenerate
  -- The program does not define the name, so what is found is the declaration of the host.
  have hfound : c.symbols.function? call.callee = some ⟨f.name, hostArity, f.minimum, i⟩ := by
    rw [hcallee, function?_eq hadvances, Symbols.function?_defineAll_of_none hnew,
      hosted_table_function? hnames hf]
  have hmaximum : call.argc.toNat ≤ HostCall.maxArguments := by
    change _ ≤ 1023
    omega
  refine ⟨{ call with op := .callHost, operand := HostCall.pack call.argc i, target := [] }, ?_,
    rfl, ?_⟩
  · unfold linkCall
    simp only [hfound]
    rw [if_neg (by omega), if_neg (by change ¬ (1023 : Int) < _; omega), if_pos (by rfl)]
  · have hargc : (call.argc.toNat : Int) = call.argc := Int.toNat_of_nonneg (by omega)
    have := HostCall.unpack_pack hmaximum i
    rwa [hargc, Nat.mod_eq_of_lt hi] at this

variable {L : Layout} (hL : Compiled t (table.map HostFunction.toImport) L)
include hL

/-- The code of a call of a function of the table. -/
theorem CallSite.host_instruction {vars : List Bytes} {args : List (Expr Cell)} {a m b : Nat}
    (hsite : CallSite L vars f.name args a m b) :
    b = m + 1 ∧ ∃ o, L.program.code[m]? = some o ∧ o.op = .callHost ∧
      HostCall.unpack o.operand = ⟨args.length, i⟩ := by
  have hcall := hsite.call
  unfold Layout.CallAt at hcall
  rw [hL.functions, hnew] at hcall
  obtain ⟨j, o, hnative, hcode, hop, hunpack, hb⟩ := hcall
  rw [hL.native] at hnative
  simp only [hosted_table_function? hnames hf, Option.map_some, Option.some.injEq] at hnative
  subst hnative
  rw [Nat.mod_eq_of_lt hi] at hunpack
  exact ⟨hb, o, hcode, hop, hunpack⟩

/-- A call to an imported function is dispatched. -/
theorem dispatches {args : List (Expr Cell)} (hcall : (f.name, args) ∈ t.calls) :
    Dispatches L table.toArray i f args where
  site := hL.hasSite hcall
  instruction := CallSite.host_instruction hnames hf hi hnew hL
  runs := by
    intro vars a m b hsite s hs
    refine ⟨hsite.evaluatesAll hL hs, ?_⟩
    rintro vs ⟨place, stack, frame, callers, w⟩ hevaluated rfl
    obtain ⟨hlength, rfl, rfl, rfl⟩ := hevaluated.kept
    obtain ⟨-, o, hcode, hop, hunpack⟩ := CallSite.host_instruction hnames hf hi hnew hL hsite
    exact ⟨hlength, next_callHost hcode hop hunpack (List.getElem?_toArray.trans hf) hlength⟩

end Table

/-- Import files and dispatch. For a table of declarable functions with distinct names, the file
that is written, wherever there is room for it, can be loaded, and it gives each function no
declared count, its minimum and its place as index. In a program that is compiled then, every call
of a function at an index below `2^22` that the program does not define itself is linked, if the
number of its arguments is allowed, to a call of the host with that index, and hands its arguments
to that function. Whatever file is loaded, it is an error exactly if one of its lines cannot be
read, and then the compilation is as it was. -/
theorem imports_dispatch {table : List HostFunction}
    (hnames : (table.map HostFunction.name).Nodup) (htable : ∀ f ∈ table, f.Declarable) :
    (∀ w : World, w.console.hasRoom (HostFunction.declarations table) = true →
      HostFunction.writeDeclarations table w =
        .ok () { w with console := w.console.write (HostFunction.declarations table) }) ∧
    (∃ c, Compilation.loadImports (HostFunction.declarations table) {} = .ok () c ∧
      c.symbols.functions = table.mapIdx (fun i f => ⟨f.name, -1, f.minimum, i⟩) ∧
      (∀ (t : Tree Cell) c', t.generate c = .ok () c' → ∀ i f, table[i]? = some f →
        i < 0x400000 → functionNamed? t.functions f.name = none →
        ∀ call ∈ c'.code, call.op = .call → call.callee = f.name → f.minimum ≤ call.argc →
          call.argc ≤ 1023 → ∃ o, linkCall c'.symbols call = .ok [o] ∧ o.op = .callHost ∧
            HostCall.unpack o.operand = ⟨call.argc.toNat, i⟩) ∧
      ∀ (t : Tree Cell) p, c.build t = .ok p → p.code.size < 0x8000000000000000 →
        ∃ L : Layout, L.program = p ∧ Compiled t (table.map HostFunction.toImport) L ∧
          ∀ i f args, table[i]? = some f → i < 0x400000 →
            functionNamed? t.functions f.name = none → (f.name, args) ∈ t.calls →
            Dispatches L table.toArray i f args) ∧
    ∀ (c : Compilation) (s : Bytes),
      ((∃ e c', Compilation.loadImports s c = .error e c') ↔
        ∃ line ∈ Import.lines s, Import.Rejected line) ∧
      ∀ e c', Compilation.loadImports s c = .error e c' → c' = c := by
  refine ⟨fun w => HostFunction.writeDeclarations_eq,
    ⟨({} : Compilation).declareImports (table.map HostFunction.toImport), ?load,
      hosted_table_functions hnames, ?link, ?run⟩,
    fun c s => ⟨c.loadImports_error_iff s, fun _ _ => Compilation.loadImports_error⟩⟩
  case load => exact Compilation.loadImports_of_parse (HostFunction.parse_declarations htable) {}
  case link =>
    intro t c' hgenerate i f hf hi hnew call _ _ hcallee hleast hmost
    have hnonneg := (htable f (List.mem_of_getElem? hf)).nonneg
    exact linkCall_host hnames hf hi hnew hgenerate hnonneg hcallee hleast hmost
  case run =>
    intro t p hbuild hfits
    have hcompile : compile t (table.map HostFunction.toImport) = .ok p := hbuild
    obtain ⟨L, hp, hL⟩ := compile_layout hcompile hfits
    exact ⟨L, hp, hL, fun i f args hf hi hnew hcall => dispatches hnames hf hi hnew hL hcall⟩

/-- A program that writes what it sets a global variable to. -/
def Tree.globalWritten : Tree Cell :=
  ⟨{}, [.perform {} "输出" [.call {} "设置全局变量"
    [.literal {} (some (.string "x")), .literal {} (some (.integer 7))]]]⟩

/-- The standard functions can be declared, and a program that calls the first and the seventeenth
is dispatched to these. A file whose second line has no minimum declares nothing. -/
theorem imports_dispatch_standard : ∃ c p, ∃ L : Layout,
    (Host.standard.map HostFunction.name).Nodup ∧ (∀ f ∈ Host.standard, f.Declarable) ∧
    HostFunction.writeDeclarations Host.standard {} =
      .ok () { console := ({} : Console).write (HostFunction.declarations Host.standard) } ∧
    Compilation.loadImports (HostFunction.declarations Host.standard) {} = .ok () c ∧
    c.symbols.functions.length = 19 ∧ c.build .globalWritten = .ok p ∧ L.program = p ∧
    (∃ f args, f.name = utf8 "输出" ∧ args.length = 1 ∧
      Dispatches L Host.standard.toArray 0 f args) ∧
    (∃ f args, f.name = utf8 "设置全局变量" ∧ args.length = 2 ∧
      Dispatches L Host.standard.toArray 16 f args) ∧
    ∃ e, Compilation.loadImports "host [a] 0\nhost [b]\n" {} = .error e {} := by
  have hnames : (Host.standard.map HostFunction.name).Nodup := by decide +kernel
  have htable : ∀ f ∈ Host.standard, f.Declarable := by decide +kernel
  obtain ⟨hwritten, ⟨c, hload, hfunctions, -, hruns⟩, hrejects⟩ := imports_dispatch hnames htable
  obtain ⟨p, hp, hfits⟩ := exists_compile .globalWritten
    (Host.standard.map HostFunction.toImport) (fun p => p.code.size < 0x8000000000000000)
    (by decide +kernel)
  have hc : ({} : Compilation).declareImports (Host.standard.map HostFunction.toImport) = c := by
    rw [Compilation.loadImports_of_parse (HostFunction.parse_declarations htable)] at hload
    cases hload
    rfl
  have hbuild : c.build .globalWritten = .ok p := hc ▸ hp
  obtain ⟨L, hL, -, hdispatches⟩ := hruns _ p hbuild hfits
  refine ⟨c, p, L, hnames, htable, hwritten {} rfl, hload,
    by rw [hfunctions, List.length_mapIdx]; rfl, hbuild, hL,
    ⟨_, _, rfl, rfl, hdispatches 0 _ _ rfl (by decide) rfl (.head _)⟩,
    ⟨_, _, rfl, rfl, hdispatches 16 _ _ rfl (by decide) rfl (.tail _ (.head _))⟩, ?_⟩
  obtain ⟨hiff, hunchanged⟩ := hrejects {} "host [a] 0\nhost [b]\n"
  obtain ⟨e, c', he⟩ := hiff.mpr (hiff.mp ⟨_, _, rfl⟩)
  exact ⟨e, by rw [he, hunchanged e c' he]⟩

end StackScript
