import StackScript.Image.Executable
import StackScript.Proofs.Image.Rewriting
import StackScript.Proofs.Machine.HostSoundness
import StackScript.Proofs.Machine.Strict

/-!
# Running what was loaded

Whatever bytes are loaded, the constants of the program are values and their arrays are full, for
they were in the format. So a program can be run without looking at what its instructions are: its
runs stay in sound states, and no access that they make misses.
-/

namespace StackScript

mutual

/-- Storing a shaped datum keeps a store full. -/
theorem Datum.store_full (d : Datum) (h : d.Shaped) {st : Store} {n : Nat} (hst : st.Full n) :
    ∃ m, n ≤ m ∧ (d.store st).2.Full m ∧ Cell.Held m (some (d.store st).1) := by
  match d with
  | .integer _ => exact ⟨n, le_rfl, hst, .scalar (by simp [Datum.store, Value.kind])⟩
  | .real _ => exact ⟨n, le_rfl, hst, .scalar (by simp [Datum.store, Value.kind])⟩
  | .string _ => exact ⟨n, le_rfl, hst, .scalar (by simp [Datum.store, Value.kind])⟩
  | .boolean _ => exact ⟨n, le_rfl, hst, .scalar (by simp [Datum.store, Value.kind])⟩
  | .array rows cols cells =>
    obtain ⟨hallowed, hlength, hcells⟩ := h
    obtain ⟨m, hle, hfull, hheld⟩ := Datum.storeAll_full cells hcells hst
    obtain ⟨hrows, hcols, hgrid⟩ := Datum.storedGrid_eq hlength st
    have hadded : (Datum.storedGrid rows cols cells st).Full (m + 1) := by
      refine ⟨by rwa [hrows, hcols], fun c hc => ?_⟩
      rw [hgrid] at hc
      exact (hheld c hc).mono (Nat.le_succ m)
    rw [Datum.store_array]
    refine ⟨m + 1, Nat.le_succ_of_le hle, hfull.add hadded, ?_⟩
    rw [hfull.next]
    exact .array (Nat.lt_succ_self m)

/-- Storing shaped data keeps a store full. -/
theorem Datum.storeAll_full (ds : List Datum) (h : Datum.AllShaped ds) {st : Store} {n : Nat}
    (hst : st.Full n) : ∃ m, n ≤ m ∧ (Datum.storeAll #[] st ds).2.Full m ∧
      ∀ c ∈ (Datum.storeAll #[] st ds).1, c.Held m := by
  match ds with
  | [] => exact ⟨n, le_rfl, hst, fun c hc => absurd hc (Array.not_mem_empty c)⟩
  | d :: ds =>
    obtain ⟨m, hle, hfull, hheld⟩ := d.store_full h.1 hst
    obtain ⟨k, hle', hfull', hheld'⟩ := Datum.storeAll_full ds h.2 hfull
    rw [Datum.storeAll_cons]
    refine ⟨k, hle.trans hle', hfull', fun c hc => ?_⟩
    rcases Array.mem_append.mp hc with hc | hc
    · rw [Array.mem_singleton.mp hc]
      exact hheld.mono hle'
    · exact hheld' c hc

end

/-- What is loaded was in the format. -/
theorem Image.exists_form_of_load {s : Bytes} {image : Image} (h : Image.load s = .ok image) :
    ∃ payload, image.Form payload := by
  unfold Image.load at h
  split at h
  · exact ⟨s, (Image.decode_iff s image).mp h⟩
  · obtain ⟨⟨payload, front⟩, -, hdecode⟩ := except_bind_eq_ok h
    exact ⟨payload, (Image.decode_iff payload image).mp hdecode⟩

/-- The arrays of a loaded program are full and its constants are values. -/
theorem Image.program_full {s : Bytes} {image : Image} {p : Program} {st : Store}
    (hload : Image.load s = .ok image) (hprogram : image.program .empty = (p, st)) :
    ∃ n, st.Full n ∧ ∀ c ∈ p.constants, c.Held n := by
  obtain ⟨payload, hform⟩ := Image.exists_form_of_load hload
  obtain ⟨hshaped, -, -, -⟩ := hform.writable
  have hempty : Store.empty.Full 0 := ⟨rfl, fun g hg => absurd hg (Array.not_mem_empty g)⟩
  obtain ⟨n, -, hfull, hheld⟩ := Datum.storeAll_full image.constants hshaped hempty
  unfold Image.program at hprogram
  cases hprogram
  exact ⟨n, hfull, hheld⟩

/-- The state in which a run ends, with or without a result. -/
def finalState {ε α : Type} : EStateM.Result ε State α → State
  | .ok _ s => s
  | .error _ s => s

/-- The worlds in which a program with its arrays in a store can be run with the standard functions:
a new one, with any input, random numbers and clock; one that was given arguments; and the one that
another run left behind. -/
inductive Prepared (p : Program) (st : Store) : World → Prop
  | fresh (console : Console) (generator : Generator) (clock : Clock) :
    Prepared p st { store := st, console, generator, clock }
  | given {w : World} (args : List Bytes) (h : args.length ≤ maxCells) :
    Prepared p st w → Prepared p st (w.setArguments args)
  | again {w : World} (blocks : Nat) :
    Prepared p st w → Prepared p st (finalState (run p Host.standard.toArray blocks w)).world

/-- The worlds in which a program can be run are sound if its arrays are full. -/
theorem Prepared.sound {p : Program} {st : Store} {w : World} {n : Nat} (hw : Prepared p st w)
    (hst : st.Full n) (hconstants : ∀ c ∈ p.constants, c.Held n) :
    ∃ m, n ≤ m ∧ w.Sound m := by
  induction hw with
  | fresh console generator clock => exact ⟨n, le_rfl, hst, List.forall_mem_nil _⟩
  | given args hargs _ ih =>
    obtain ⟨m, hle, hsound⟩ := ih
    exact ⟨m + 1, Nat.le_succ_of_le hle, hsound.setArguments hargs⟩
  | again blocks _ ih =>
    obtain ⟨m, hle, hsound⟩ := ih
    obtain ⟨-, hleft⟩ := Strict.runsStrictly Host.standard_sound (blocks * blockSize)
      (fun c hc => (hconstants c hc).mono hle) (hsound.start p.code.size)
    unfold run
    cases hrun : runWithin p Host.standard.toArray (blocks * blockSize) _ with
    | ok r s =>
      rw [hrun] at hleft
      obtain ⟨k, hle', hs⟩ := hleft
      exact ⟨k, hle.trans hle', hs.world⟩
    | error e s =>
      rw [hrun] at hleft
      obtain ⟨k, hle', hs⟩ := hleft
      exact ⟨k, hle.trans hle', hs.world⟩

/-- Loaded programs run soundly. Whatever bytes are loaded, and whatever the input and the arguments
are, every state that a run with the standard functions comes to is sound: no value is missing
anywhere, the arrays have sizes that arrays can have, and the place is in the program or at its end.
Every access of the next instruction finds what it looks for, and so does the run as a whole. -/
theorem loaded_runs_sound {file : Bytes} {image : Image} {p : Program} {st : Store} {w : World}
    (hload : Image.load file = .ok image) (hprogram : image.program .empty = (p, st))
    (hw : Prepared p st w) :
    (∀ k s, Steps p Host.standard.toArray k (.start p.code.size w) s →
      (∃ n, s.Sound p.code.size (p.code.size + 1) n) ∧
        ∀ i, p.code[s.place]? = some i → Strict.step p Host.standard.toArray i s =
          Strict.unbroken (step p Host.standard.toArray i s)) ∧
      ∀ blocks, Strict.run p Host.standard.toArray blocks w =
        Strict.unbroken (run p Host.standard.toArray blocks w) := by
  obtain ⟨n, hfull, hheld⟩ := Image.program_full hload hprogram
  obtain ⟨m, hle, hsound⟩ := hw.sound hfull hheld
  have hconstants : ∀ c ∈ p.constants, c.Held m := fun c hc => (hheld c hc).mono hle
  refine ⟨fun k s hsteps => ?_, fun blocks => ?_⟩
  · obtain ⟨k, hle', hs⟩ :=
      Steps.sound Host.standard_sound hsteps hconstants (hsound.start p.code.size)
    refine ⟨⟨k, hs⟩, fun i hi => ?_⟩
    have hheld' : ∀ c ∈ p.constants, c.Held k := fun c hc => (hconstants c hc).mono hle'
    exact Strict.step_eq Host.standard_sound hheld' (hs.fetch hi) i
  · exact (Strict.runsStrictly Host.standard_sound _ hconstants (hsound.start p.code.size)).1

/-- A file whose program puts an array into its own cell, which it finds by the array as row and as
column: an array counts as zero. -/
def Image.selfHolding : Bytes :=
  Image.marker ++ littleEndian 4 2 ++ littleEndian 4 9 ++ littleEndian 8 92 ++
    List.replicate 16 0 ++ littleEndian 8 0 ++
    [Kind.array.tag, 0, 1, 1, Kind.integer.tag, 0, 0, Kind.integer.tag, 0, 0] ++
    littleEndian 2 Opcode.frame.code.toNat ++ [1] ++
    littleEndian 2 Opcode.constant.code.toNat ++ [0] ++
    littleEndian 2 Opcode.store.code.toNat ++ [0] ++
    littleEndian 2 Opcode.load.code.toNat ++ [0] ++
    littleEndian 2 Opcode.load.code.toNat ++ [0] ++
    littleEndian 2 Opcode.load.code.toNat ++ [0] ++
    littleEndian 2 Opcode.writeArray.code.toNat ++ [0] ++
    littleEndian 2 Opcode.constant.code.toNat ++ [1] ++
    littleEndian 2 Opcode.ret.code.toNat

/-- What the file holds. -/
def Image.ofSelfHolding : Image where
  constants := [.array 1 1 [.integer 0], .integer 0]
  code := [{ op := .frame, operand := 1 }, { op := .constant, operand := 0 },
    { op := .store, operand := 0 }, { op := .load, operand := 0 },
    { op := .load, operand := 0 }, { op := .load, operand := 0 },
    { op := .writeArray, operand := 0 }, { op := .constant, operand := 1 }, { op := .ret }]
  created := .zero

/-- An array that holds itself is loaded and run soundly. -/
theorem loaded_runs_sound_selfHolding : ∃ p st s, Image.load Image.selfHolding =
    .ok Image.ofSelfHolding ∧ Image.ofSelfHolding.program .empty = (p, st) ∧
      Steps p Host.standard.toArray 7
        (.start p.code.size (.setArguments { store := st } ["x"])) s ∧
      (s.world.store.grid 0).cells = #[some (.array 0)] ∧
      ∃ n, s.Sound p.code.size (p.code.size + 1) n := by
  have hload : Image.load Image.selfHolding = .ok Image.ofSelfHolding := rfl
  have hsteps : ∃ s, Steps (Image.ofSelfHolding.program .empty).1 Host.standard.toArray 7
      (.start (Image.ofSelfHolding.program .empty).1.code.size
        (.setArguments { store := (Image.ofSelfHolding.program .empty).2 } ["x"])) s ∧
      (s.world.store.grid 0).cells = #[some (.array 0)] := by
    decide +kernel
  obtain ⟨s, hsteps, hcells⟩ := hsteps
  have hprepared : Prepared (Image.ofSelfHolding.program .empty).1
      (Image.ofSelfHolding.program .empty).2
      (.setArguments { store := (Image.ofSelfHolding.program .empty).2 } ["x"]) :=
    .given ["x"] (by decide) (.fresh {} (.ofSeed 1) (.still ⟨0, 0⟩))
  obtain ⟨hsound, -⟩ := (loaded_runs_sound hload rfl hprepared).1 7 s hsteps
  exact ⟨_, _, s, hload, rfl, hsteps, hcells, hsound⟩

end StackScript
