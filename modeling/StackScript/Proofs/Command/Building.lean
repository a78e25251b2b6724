import StackScript.Command.Tool
import StackScript.Proofs.Files.Replacing
import StackScript.Proofs.Files.Volumes

/-!
# Building, all or nothing

A build reads the manifest, the tree, the import file and the loader, and makes everything in
memory; only then it replaces a single file. So a build that fails, in whichever phase, leaves every
file with the contents and the mode that it had and no temporary file behind, and a build that
succeeds changes the file at its output path only, which then holds what was built. This holds of
every file system that meets its specification, and volumes are one.
-/

namespace StackScript

variable {σ P : Type} {view : FileView σ P}

/-- A command that may fail ends with its result, or with the wording of its failure. -/
theorem run_conclude {post : Action → σ → Prop} {fail : CommandError → σ → Prop}
    {c : ExceptT CommandError (StateM σ) Action} {s : σ} (h : Yields post fail c s) :
    ∃ a s', (conclude c).run s = (a, s') ∧
      (post a s' ∨ ∃ e, a = .finish (.failure e.message) ∧ fail e s') := by
  unfold conclude
  rw [StateT.run_bind]
  unfold Yields at h
  generalize c.run.run s = r at h ⊢
  cases h with
  | ok h => exact ⟨_, _, rfl, .inl h⟩
  | error h => exact ⟨_, _, rfl, .inr ⟨_, rfl, h⟩⟩

variable [Files (StateM σ)]

/-! ## Building in memory -/

namespace Manifest

/-- Making a path absolute reads. -/
theorem absolute_reads (spec : view.Spec) (path : Bytes) :
    view.Reads (absolute path : StateM σ (Except FileError Bytes)) := by
  unfold absolute
  exact .ite (.pure _) (.bind spec.workingDirectory fun _ => .pure _)

/-- Loading a manifest reads. -/
theorem load_reads (spec : view.Spec) (directory : Bytes) :
    view.ReadsOrFails (load directory : ExceptT ManifestError (StateM σ) Manifest) := by
  unfold load
  refine .bind (.attempt _ (spec.read _)) fun text => ?_
  split
  · exact .throw _
  · exact .bind (.attempt _ (absolute_reads spec directory)) fun _ => .pure _

/-- Loading the first manifest reads. -/
theorem loadFirst_reads (spec : view.Spec) (directories : List Bytes) :
    view.ReadsOrFails (loadFirst directories : ExceptT ManifestError (StateM σ) _) := by
  induction directories with
  | nil => exact .pure _
  | cons directory rest ih =>
    rw [loadFirst]
    refine .bind (.lift (spec.isPresent _)) fun present => ?_
    exact .ite (.bind (load_reads spec directory) fun _ => .pure _) ih

/-- Finding a manifest reads. -/
theorem find_reads (spec : view.Spec) (directory : Bytes) :
    view.ReadsOrFails (find directory : ExceptT ManifestError (StateM σ) _) := by
  unfold find
  exact .bind (.attempt _ (absolute_reads spec directory)) fun _ => loadFirst_reads spec _

/-- Choosing the import file reads. -/
theorem importsPath_reads (spec : view.Spec) (manifest : Manifest) :
    view.Reads (manifest.importsPath : StateM σ Bytes) := by
  unfold importsPath
  refine .ite (.pure _) (.bind (spec.isPresent _) fun present => ?_)
  exact .pure _

end Manifest

/-- Finding the manifest of the project reads. -/
theorem projectManifest_reads (spec : view.Spec) :
    view.ReadsOrFails (projectManifest : ExceptT CommandError (StateM σ) Manifest) := by
  unfold projectManifest
  refine .bind (.adapt _ (Manifest.find_reads spec _)) fun found => ?_
  cases found with
  | some manifest => exact .pure _
  | none => exact .bind (.lift spec.workingDirectory) fun _ => .pure _

/-- Loading a tree reads. -/
theorem loadTree_reads (spec : view.Spec) (path : Bytes) :
    view.ReadsOrFails (loadTree path : ExceptT TreeFileError (StateM σ) _) := by
  unfold loadTree
  refine .bind (.attempt _ (spec.read _)) fun data => ?_
  split
  · exact .pure _
  · exact .throw _

/-- Loading the imports reads. -/
theorem loadImportFile_reads (spec : view.Spec) (c : Compilation) (path : Bytes) :
    view.ReadsOrFails (c.loadImportFile path : ExceptT ImportFileError (StateM σ) _) := by
  unfold Compilation.loadImportFile
  refine .ite (.pure _) (.bind (.attempt _ (spec.read _)) fun text => ?_)
  split
  · exact .pure _
  · exact .throw _

/-- Loading the loader reads. -/
theorem loadLoader_reads (spec : view.Spec) (o : ProductOptions) :
    view.ReadsOrFails (loadLoader o : ExceptT ProductError (StateM σ) Bytes) := by
  unfold loadLoader
  exact .ite (.pure _) (.ite (.throw _) (.attempt _ (spec.read _)))

/-- Producing an artifact reads. -/
theorem produce_reads (spec : view.Spec) (o : ProductOptions) (st : Store) (t : Tree Cell)
    (now : Instant) :
    view.ReadsOrFails (produce o st t now : ExceptT ProductError (StateM σ) _) := by
  unfold produce
  refine .bind (.adapt _ (loadImportFile_reads spec _ _)) fun c => ?_
  split
  · exact .throw _
  · refine .bind (loadLoader_reads spec o) fun loader => ?_
    split
    · exact .throw _
    · exact .pure _

namespace BuildCommand

/-- What a build makes in memory: the form, the import file and the loader are those that the
options or the manifest name, and the data is what `produce` gives for the tree in the file. No file
changes while it is made. -/
def Produced (view : FileView σ P) (env : Surroundings) (choices : Choices) (input : Bytes)
    (b : Built) (s : σ) : Prop :=
  ∃ manifest usual tree p s₁ s₂ s₃ s₄,
    (projectManifest : ExceptT CommandError (StateM σ) Manifest).run.run s = (.ok manifest, s₁) ∧
    Format.ofName? (orElse (choices.text "T" "") manifest.format) = some b.format ∧
    (manifest.importsPath : StateM σ Bytes).run s₁ = (usual, s₂) ∧
    (loadTree input : ExceptT TreeFileError (StateM σ) _).run.run s₂ = (.ok tree, s₃) ∧
    (produce
      { format := b.format
        imports := orElse (choices.text "I" "") usual
        loader := orElse (choices.text "L" "") manifest.loaderPath }
      (tree.store .empty).2 (tree.store .empty).1 env.clock.now :
        ExceptT ProductError (StateM σ) _).run.run s₃ = (.ok (b.data, p), s₄) ∧
    b.path = outputPath choices manifest b.format input ∧
    view.Same s s₁ ∧ view.Same s s₂ ∧ view.Same s s₃

/-- Preparing changes nothing. -/
theorem prepare_yields (spec : view.Spec) (env : Surroundings) (choices : Choices) (input : Bytes)
    (s : σ) :
    Yields (fun b s' => Produced view env choices input b s ∧ view.Same s s')
      (fun _ s' => view.entry s' = view.entry s) (prepare env choices input) s := by
  unfold prepare
  refine ((projectManifest_reads spec).yields (.refl s)).bind ?_
  rintro manifest s₁ ⟨hmanifest, hsame₁⟩
  simp only
  split
  case h_1 => exact .throw hsame₁.entries
  case h_2 f hf =>
    have himports : Yields
        (fun usual s' => (manifest.importsPath : StateM σ Bytes).run s₁ = (usual, s') ∧
          view.Same s s') (fun _ s' => view.entry s' = view.entry s)
        (monadLift manifest.importsPath : ExceptT CommandError (StateM σ) Bytes) s₁ :=
      .lift ⟨rfl, hsame₁.trans (Manifest.importsPath_reads spec manifest s₁)⟩
    refine himports.bind ?_
    rintro usual s₂ ⟨husual, hsame₂⟩
    refine ((loadTree_reads spec input).yields hsame₂).adapt.bind ?_
    rintro tree s₃ ⟨htree, hsame₃⟩
    refine ((produce_reads spec _ _ _ _).yields hsame₃).adapt.bind ?_
    rintro ⟨data, p⟩ s₄ ⟨hproduce, hsame₄⟩
    exact .pure ⟨⟨manifest, usual, tree, p, s₁, s₂, s₃, s₄, hmanifest, hf, husual, htree, hproduce,
      rfl, hsame₁, hsame₂, hsame₃⟩, hsame₄⟩

/-- What was built has been delivered: to standard output, with all files as they were, or to the
file at its path, with all others as they were. -/
structure Delivered (view : FileView σ P) (b : Built) (s s' : σ) : Prop where
  output : b.path = standardOutput →
    view.printed s' = view.printed s ++ b.data ∧ view.entry s' = view.entry s
  file : b.path ≠ standardOutput → view.Replaced b.path b.data (outputMode b.format) s s'

/-- Delivering writes all of what was built, or changes no file: a terminal may be in the way, or
the output may fail. -/
theorem deliver_yields (spec : view.Spec) (env : Surroundings) (b : Built) {s₀ s : σ}
    (hs : view.Same s₀ s) :
    Yields (fun o s' => o.exit = 0 ∧ Delivered view b s₀ s')
      (fun _ s' => view.entry s' = view.entry s₀) (deliver env b) s := by
  unfold deliver
  by_cases hstandard : b.path = standardOutput
  · rw [if_pos hstandard]
    split
    · exact .throw hs.entries
    · refine (Yields.attempt ((spec.print b.data s).imp (fun _ _ h => h) ?_)).bind ?_
      · intro _ s' hentries
        exact hentries.trans hs.entries
      · rintro - s' ⟨hprinted, hentries⟩
        rw [hs.printed] at hprinted
        exact .pure ⟨rfl, fun _ => ⟨hprinted, hentries.trans hs.entries⟩,
          fun hpath => absurd hstandard hpath⟩
  · rw [if_neg hstandard]
    have hmode : outputMode b.format % 0o1000 = outputMode b.format := by
      unfold outputMode
      split <;> rfl
    refine Yields.bind (.adapt ((replaceFile_yields spec b.path b.data
      (outputMode b.format) s).imp (fun _ _ h => h) ?_)) ?_
    · intro _ s' hentries
      exact hentries.trans hs.entries
    · intro _ s' hreplaced
      rw [hmode] at hreplaced
      exact .pure ⟨rfl, fun hpath => absurd hpath hstandard, fun _ => hreplaced.of_same hs⟩

/-- A build has succeeded: it ends without an error, and what was produced has been delivered. -/
def Succeeded (view : FileView σ P) (env : Surroundings) (choices : Choices) (input : Bytes)
    (o : Outcome) (s s' : σ) : Prop :=
  o.exit = 0 ∧ ∃ b, Produced view env choices input b s ∧ Delivered view b s s'

/-- Nothing is written before everything is built. -/
theorem build_yields (spec : view.Spec) (env : Surroundings) (choices : Choices) (input : Bytes)
    (s : σ) :
    Yields (fun o s' => Succeeded view env choices input o s s')
      (fun _ s' => view.entry s' = view.entry s) (build env choices input) s := by
  unfold build
  refine (prepare_yields spec env choices input s).bind ?_
  rintro b s₁ ⟨hproduced, hsame⟩
  -- What is delivered behind `prepare` counts from the first state, which looked the same.
  refine (deliver_yields spec env b hsame).imp ?_ fun _ _ h => h
  rintro o s' ⟨hexit, hdelivered⟩
  exact ⟨hexit, b, hproduced, hdelivered⟩

/-- The command fails with all files as they were, or succeeds. -/
theorem run_conclude_build (spec : view.Spec) (env : Surroundings) (choices : Choices)
    (input : Bytes) (s : σ) :
    ∃ o s', (conclude do return .finish (← build env choices input) : StateM σ Action).run s =
        (.finish o, s') ∧
      (o.exit ≠ 0 ∧ view.entry s' = view.entry s ∨ Succeeded view env choices input o s s') := by
  have hfinish : Yields
      (fun a s' => ∃ o, a = Action.finish o ∧ Succeeded view env choices input o s s')
      (fun (_ : CommandError) s' => view.entry s' = view.entry s)
      (do return Action.finish (← build env choices input)) s :=
    (build_yields spec env choices input s).bind fun o s' h => .pure ⟨o, rfl, h⟩
  obtain ⟨a, s', hrun, ⟨o, rfl, hbuilt⟩ | ⟨e, rfl, hsame⟩⟩ := run_conclude hfinish
  · exact ⟨o, s', hrun, .inr hbuilt⟩
  · exact ⟨_, s', hrun, .inl ⟨(by decide : (1 : UInt8) ≠ 0), hsame⟩⟩

/-- Building ends without an error only if everything was built and has been delivered, or if help
was asked for. In all other cases, and when help was asked for, every file is as it was. -/
theorem build_all_or_nothing (spec : view.Spec) (env : Surroundings) (args : List Bytes) (s : σ) :
    ∃ o s', (Tool.run env ("build" :: args) : StateM σ Action).run s = (.finish o, s') ∧
      (o.exit ≠ 0 → view.entry s' = view.entry s) ∧
      (o.exit = 0 →
        readOptions usage.options [] args = .error .help ∧ view.entry s' = view.entry s ∨
        ∃ choices input, readOptions usage.options [] args = .ok (choices, [input]) ∧
          Succeeded view env choices input o s s') := by
  have hrun : (Tool.run env ("build" :: args) : StateM σ Action) = run env args := by
    rw [Tool.run]
    exact if_pos (beq_self_eq_true _)
  rw [hrun]
  unfold run
  split
  · rename_i e hoptions
    cases e with
    | help => exact ⟨_, _, rfl, fun _ => rfl, fun _ => .inl ⟨hoptions, rfl⟩⟩
    | _ => exact ⟨_, _, rfl, fun _ => rfl, fun hexit => by cases hexit⟩
  · rename_i choices input hoptions
    obtain ⟨o, s', hend, ⟨hexit, hsame⟩ | hbuilt⟩ := run_conclude_build spec env choices input s
    · exact ⟨o, s', hend, fun _ => hsame, fun hzero => absurd hzero hexit⟩
    · exact ⟨o, s', hend, fun hexit => absurd hbuilt.1 hexit,
        fun _ => .inr ⟨choices, input, hoptions, hbuilt⟩⟩
  · exact ⟨_, _, rfl, fun _ => rfl, fun hexit => by cases hexit⟩

/-- A volume with a tree file and an older listing. -/
def willingVolume : Volume where
  entries :=
    [(["a.cbor"], .file [0xa1, 0x64, 0x6b, 0x69, 0x6e, 0x64, 0x67, 0x70, 0x72, 0x6f, 0x67, 0x72,
        0x61, 0x6d] 0o644),
      (["a.asm"], .file [7] 0o600)]

/-- The same volume, on which a new listing cannot be moved to its place. -/
def reluctantVolume : Volume :=
  { willingVolume with
    refusal := fun a =>
      if a = .renameFile "./.a.asm.1000000000.tmp" "a.asm" then some .isDirectory else none }

/-- The arguments for a listing. -/
def listingArguments : List Bytes := ["-T", "asm", "a.cbor"]

/-- What the build of the listing has around it. -/
def listingSurroundings : Surroundings where
  clock := .still ⟨0, 0⟩
  seed := 0
  input := []

/-- A listing that cannot be moved to its place leaves the older one there, and one that can be
replaces it. -/
theorem build_all_or_nothing_listing :
    (∃ o v', (Tool.run listingSurroundings ("build" :: listingArguments) :
        StateM Volume Action).run reluctantVolume = (.finish o, v') ∧
      o.exit = 1 ∧ v'.at? = reluctantVolume.at?) ∧
    ∃ o v', (Tool.run listingSurroundings ("build" :: listingArguments) :
        StateM Volume Action).run willingVolume = (.finish o, v') ∧
      ∃ choices input, readOptions usage.options [] listingArguments = .ok (choices, [input]) ∧
        Succeeded Volume.view listingSurroundings choices input o willingVolume v' := by
  constructor
  · obtain ⟨o, v', hrun, hfail, -⟩ := build_all_or_nothing Volume.view_spec listingSurroundings
      listingArguments reluctantVolume
    have hexit : (((Tool.run listingSurroundings ("build" :: listingArguments) :
        StateM Volume Action).run reluctantVolume).1.outcome 0).exit = 1 := by
      decide +kernel
    rw [hrun] at hexit
    change o.exit = 1 at hexit
    refine ⟨o, v', hrun, hexit, hfail ?_⟩
    rw [hexit]
    decide
  · obtain ⟨o, v', hrun, -, hok⟩ := build_all_or_nothing Volume.view_spec listingSurroundings
      listingArguments willingVolume
    have hexit : (((Tool.run listingSurroundings ("build" :: listingArguments) :
        StateM Volume Action).run willingVolume).1.outcome 0).exit = 0 := by
      decide +kernel
    have hread : (readOptions usage.options [] listingArguments).isOk = true := by
      decide +kernel
    rw [hrun] at hexit
    rcases hok hexit with ⟨hhelp, -⟩ | hbuilt
    · rw [hhelp] at hread
      cases hread
    · exact ⟨o, v', hrun, hbuilt⟩

end BuildCommand

end StackScript
