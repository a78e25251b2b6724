import StackScript.Proofs.Compile.Constants
import StackScript.Proofs.Image.Extraction
import StackScript.Proofs.Machine.HostRenaming
import StackScript.Proofs.Tree.Filled

/-!
# Programs that were written out and loaded

The program that is loaded from a file, or from behind a loader, has the data of the constants,
stored anew. A compiled program takes its arrays from the literals of a tree, which share none, so
the arrays of the two programs correspond one to one, and the two run alike.
-/

namespace StackScript

/-- An artifact that is no listing is loaded as the program file in it. -/
theorem Program.load_artifact {st : Store} {p : Program} {format : Format} {loader : Bytes}
    {now : Instant} {payload : Bytes} (hpayload : p.encode st now = .ok payload)
    (himage : Image.isImage payload = true) (hheader : headerSize ≤ payload.length)
    (hformat : format = .bytecode ∨
      format = .executable ∧ loader ≠ [] ∧ Image.isImage loader = false) :
    ∃ file, p.artifact st format loader now = .ok file ∧
      payload.length ≤ file.length ∧
      (file.length < 0x10000000000000000 → Image.load file = Image.decode payload) := by
  rcases hformat with rfl | ⟨rfl, hloader, hmarker⟩
  · refine ⟨payload, ?_, Nat.le_refl _, fun _ => ?_⟩
    · unfold Program.artifact
      rw [hpayload]
    · unfold Image.load
      rw [himage]
      rfl
  · have hlength : payload.length ≤ (Executable.pack loader payload).length := by
      unfold Executable.pack
      rw [List.length_append, List.length_append]
      omega
    refine ⟨Executable.pack loader payload, ?_, hlength, fun hsize => ?_⟩
    · unfold Program.artifact
      rw [hpayload]
      simp [hloader]
    · exact Image.load_pack hloader hmarker himage hheader (Nat.lt_of_le_of_lt hlength hsize)

/-! ## Instructions of a file -/

/-- An operand that an instruction does not carry does not matter. -/
theorem step_bare (p : Program) (hosts : Array HostFunction) (i : Instruction) :
    step p hosts i.bare = step p hosts i := by
  obtain ⟨op, operand, label, target, callee, argc⟩ := i
  cases op <;> rfl

/-- Labels are not in the text of an instruction. -/
theorem Instruction.text_bare (i : Instruction) : i.bare.text = i.text := by
  obtain ⟨op, operand, label, target, callee, argc⟩ := i
  cases op <;> rfl

/-! ## Compiled programs -/

/-- The constants of a program that is compiled from a tree without shared arrays share none. -/
theorem compile_constants {tree : Tree Datum} (hshaped : Datum.AllShaped tree.literals)
    {imports : List Import} {p : Program} (h : compile (tree.store .empty).1 imports = .ok p) :
    ∃ data, Datum.DescribesAll (tree.store .empty).2 data p.constants.toList ∧
      Datum.AllShaped data ∧
      (Datum.keysOfAll (tree.store .empty).2 data p.constants.toList).Nodup ∧
      ∀ k ∈ Datum.keysOfAll (tree.store .empty).2 data p.constants.toList,
        k < (tree.store .empty).2.next := by
  obtain ⟨horigin, hdistinct⟩ := compile_origin h
  have hentered := tree.store_literals .empty
  unfold Datum.Enter at hentered
  have hcells : (Datum.storeAll #[] .empty tree.literals).1.toList =
      (tree.store .empty).1.literals := by rw [hentered]
  have hstore : (Datum.storeAll #[] .empty tree.literals).2 = (tree.store .empty).2 := by
    rw [hentered]
  -- The literals are entered into an empty store one after another, so the keys of their arrays are
  -- numbered from zero on and none occurs twice.
  have hextends : (tree.store .empty).2.Extends (Datum.storeAll #[] .empty tree.literals).2 := by
    rw [hstore]
    exact .refl _
  have hdescribes := Datum.storeAll_describes tree.literals hshaped .empty hextends
  obtain ⟨hkeys, hnext⟩ := Datum.storeAll_keys tree.literals hshaped .empty hextends
  obtain ⟨pairs, hdata, hvalues, hpairs, hpairKeys⟩ := hdescribes.exists_pairs
  rw [hcells] at hvalues
  rw [hkeys] at hpairKeys
  have hnodup : (pairs.flatMap fun q => q.1.keysOf (tree.store .empty).2 q.2).Nodup := by
    rw [← hpairKeys]
    exact List.nodup_range'
  have hpairsShaped : ∀ q ∈ pairs, q.1.Shaped := by
    intro q hq
    refine hshaped.of_mem ?_
    rw [hdata]
    exact List.mem_map_of_mem hq
  rw [hvalues] at horigin
  -- Each constant is one of the literals, and no array is a constant twice.
  obtain ⟨data, hdata, hdataShaped, hdataNodup, hfrom⟩ :=
    Datum.exists_describesAll_nodup hpairs hpairsShaped hnodup horigin hdistinct
  refine ⟨data, hdata, hdataShaped, hdataNodup, fun k hk => ?_⟩
  obtain ⟨q, hq, -, hkq⟩ := hfrom k hk
  have hmem : k ∈ List.range' Store.empty.next (Datum.arraysAll tree.literals) := by
    rw [hpairKeys]
    exact List.mem_flatMap.mpr ⟨q, hq, hkq⟩
  rw [hstore] at hnext
  rw [hnext]
  exact (List.mem_range'_1.mp hmem).2

/-- The arrays of a program and of the one that is made of its data correspond. -/
theorem Image.program_renamed {st : Store} {p : Program} {image : Image}
    (hdata : Datum.DescribesAll st image.constants p.constants.toList)
    (hshaped : Datum.AllShaped image.constants)
    (hnodup : (Datum.keysOfAll st image.constants p.constants.toList).Nodup)
    (hknown : ∀ k ∈ Datum.keysOfAll st image.constants p.constants.toList, k < st.next)
    {st₀ st' : Store} {q : Program} (hq : image.program st₀ = (q, st')) :
    ∃ ρ, Store.Renamed ρ st st' ∧
      Cell.AllRenamed ρ p.constants.toList q.constants.toList := by
  unfold Image.program at hq
  cases hq
  have hstored := Datum.storeAll_describes image.constants hshaped st₀ (.refl _)
  obtain ⟨hkeys, hnext⟩ := Datum.storeAll_keys image.constants hshaped st₀ (.refl _)
  refine Store.Renamed.of_keys hdata hstored hnodup ?_ hknown fun k hk => ?_
  · rw [hkeys]
    exact List.nodup_range'
  · rw [hkeys] at hk
    rw [hnext]
    exact (List.mem_range'_1.mp hk).2

/-- The world in which a program starts whose arrays are in the store. -/
def World.starting (store : Store) (console : Console) (generator : Generator) (clock : Clock)
    (args : List Bytes) : World :=
  { store, console, generator, clock : World }.setArguments args

/-- Building, loading and running is compiling and running. A tree that is read from bytes and
compiles gives a program that can be written to a program file or, with a loader that does not look
like one, to an executable. What is loaded from that runs as the program itself does: whatever the
console, the random numbers, the clock and the arguments are, and however many blocks the run is
granted, it ends with the same result or the same message and leaves the same console. -/
theorem run_loaded_artifact {source : Bytes} {tree : Tree Datum} {imports : List Import}
    {p : Program} {format : Format} {loader : Bytes} (now : Instant)
    (hread : Tree.read source = .ok tree)
    (hcompile : compile (tree.store .empty).1 imports = .ok p)
    (hframes : ∀ i ∈ p.code.toList, i.op = .frame → i.operand.toNat ≤ maxCells)
    (hconstants : p.constants.size < 0x100000000) (hcode : p.code.size < 0x100000000)
    (hformat : format = .bytecode ∨
      format = .executable ∧ loader ≠ [] ∧ Image.isImage loader = false) :
    ∃ file, p.artifact (tree.store .empty).2 format loader now = .ok file ∧
      (file.length < 0x10000000000000000 → ∃ image, Image.load file = .ok image ∧
        ∀ st₀ q st', image.program st₀ = (q, st') → ∀ blocks console generator clock args,
          report (run q Host.standard.toArray blocks
              (.starting st' console generator clock args)) =
            report (run p Host.standard.toArray blocks
              (.starting (tree.store .empty).2 console generator clock args))) := by
  have hvalid := compile_valid hcompile
  obtain ⟨data, hdata, hshaped, hnodup, hknown⟩ :=
    compile_constants (Tree.read_shaped hread) hcompile
  obtain ⟨payload, hpayload, himage, hheader, hdecode⟩ :=
    Program.decode_encode now hdata hshaped hvalid hframes hconstants hcode
  obtain ⟨file, hfile, hlength, hload⟩ :=
    Program.load_artifact hpayload himage hheader hformat
  refine ⟨file, hfile, fun hsize => ⟨_, (hload hsize).trans (hdecode (by omega)), ?_⟩⟩
  intro st₀ q st' hq blocks console generator clock args
  -- The loaded program has other keys for its arrays, and a run does not depend on keys.
  obtain ⟨ρ, hstore, hsame⟩ := Image.program_renamed hdata hshaped hnodup hknown hq
  have hworld : World.Renamed ρ
      { store := (tree.store .empty).2, console, generator, clock }
      { store := st', console, generator, clock } := ⟨hstore, .nil, rfl, rfl, rfl⟩
  have hcodes : q.code = p.code.map Instruction.bare := by
    unfold Image.program at hq
    cases hq
    exact List.map_toArray.symm
  exact (hworld.setArguments args).report_run Host.standard_respectsKeys hcodes
    (step_bare q Host.standard.toArray) Instruction.text_bare (hsame.mono fun _ _ => .inl) blocks

/-- A tree that shows an array in an array literal and compares it with itself. -/
def Tree.nested : Tree Datum where
  pos := ⟨1, 1⟩
  body :=
    let zero := Expr.literal ⟨2, 7⟩ (.integer 0)
    let inner := Expr.element ⟨2, 5⟩ "a" zero zero
    [.declare ⟨1, 1⟩ "a" (.literal ⟨1, 5⟩ (.array 1 1 [.array 1 2 [.integer 2, .string "é"]])),
      .perform ⟨2, 1⟩ "输出" [inner],
      .giveBack ⟨3, 1⟩ (.binary ⟨3, 3⟩ .eq inner inner)]

/-- The file of the tree. -/
def Tree.nestedSource : Bytes :=
  ((Tree.nested.store .empty).1.write (Tree.nested.store .empty).2).toOption.getD []

/-- An artifact with arrays in arrays runs alike. -/
theorem run_loaded_artifact_nested : ∃ tree p file image,
    Tree.read Tree.nestedSource = .ok tree ∧
      compile (tree.store .empty).1 [⟨"输出", 0⟩] = .ok p ∧
      p.artifact (tree.store .empty).2 .executable [0xDA, 0xE6] ⟨1700000000, 0⟩ = .ok file ∧
      Image.load file = .ok image ∧
      ∀ st₀ q st', image.program st₀ = (q, st') → ∀ blocks console generator clock args,
        report (run q Host.standard.toArray blocks
            (.starting st' console generator clock args)) =
          report (run p Host.standard.toArray blocks
            (.starting (tree.store .empty).2 console generator clock args)) := by
  have hcheck : (Tree.read Tree.nestedSource).toOption.any (fun tree =>
      (compile (tree.store .empty).1 [⟨"输出", 0⟩]).toOption.any fun p =>
        decide ((∀ i ∈ p.code.toList, i.op = .frame → i.operand.toNat ≤ maxCells) ∧
          p.constants.size < 0x100000000 ∧ p.code.size < 0x100000000) &&
        (p.artifact (tree.store .empty).2 .executable [0xDA, 0xE6]
          ⟨1700000000, 0⟩).toOption.all fun file =>
            decide (file.length < 0x10000000000000000)) = true := by decide +kernel
  cases hread : Tree.read Tree.nestedSource with
  | error e =>
    rw [hread] at hcheck
    cases hcheck
  | ok tree =>
    rw [hread] at hcheck
    cases hcompile : compile (tree.store .empty).1 [⟨"输出", 0⟩] with
    | error e => simp [Except.toOption, hcompile] at hcheck
    | ok p =>
      simp only [Except.toOption, hcompile, Option.any_some, Bool.and_eq_true,
        decide_eq_true_eq] at hcheck
      obtain ⟨⟨hframes, hconstants, hcode⟩, hshort⟩ := hcheck
      obtain ⟨file, hfile, hload⟩ := run_loaded_artifact ⟨1700000000, 0⟩ hread hcompile hframes
        hconstants hcode (.inr ⟨rfl, List.cons_ne_nil 0xDA [0xE6], by decide⟩)
      rw [hfile] at hshort
      obtain ⟨image, himage, hruns⟩ := hload (of_decide_eq_true hshort)
      exact ⟨tree, p, file, image, rfl, hcompile, hfile, himage, hruns⟩

end StackScript
