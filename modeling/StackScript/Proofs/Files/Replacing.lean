import StackScript.Proofs.Files.Steps

/-!
# Replacing a file, all or nothing

On every file system that meets its specification, replacing a file either succeeds, and then the
path leads to a file with the new contents and mode and nothing else has changed, or it fails, and
then nothing has. The invariant between the steps is that a single file is new, the temporary one:
work on it keeps that true, moving it to its place ends it, and so does taking it away.
-/

namespace StackScript

variable {σ P : Type} {view : FileView σ P}

namespace FileView

section Made

variable {temporary data : Bytes} {p : P} {mode : Nat} {s s' s'' : σ}

/-- A new file remains the only change while only that file is changed. -/
theorem Made.of_only (h : view.Made temporary p data mode s s') (honly : view.Only p s' s'')
    {data' : Bytes} {mode' : Nat} (hfile : view.FileAt temporary p data' mode' s'') :
    view.Made temporary p data' mode' s s'' where
  fresh := h.fresh
  only :=
    { others := fun q hq => (honly.others q hq).trans (h.only.others q hq)
      places := honly.places.trans h.only.places }
  file := hfile

/-- Work on a new file, successful or not, leaves it the only change. -/
theorem Made.worksOn (h : view.Made temporary p data mode s s')
    {change : Bytes → Nat → Bytes × Nat} {x : StateM σ (Except FileError Unit)}
    (hx : view.WorksOn temporary change x) :
    EndsAs
      (fun _ s'' => view.Made temporary p (change data mode).1 (change data mode).2 s s'')
      (fun _ s'' => ∃ data' mode', view.Made temporary p data' mode' s s'') (x.run s') := by
  refine (hx p data mode s' h.file).imp ?_ ?_
  · rintro - s'' ⟨honly, hfile⟩
    exact h.of_only honly hfile
  · rintro - s'' ⟨honly, data', mode', hfile⟩
    exact ⟨data', mode', h.of_only honly hfile⟩

variable [Files (StateM σ)]

/-- A new file that is moved replaces the file at the target, and is left where it is if it cannot
be moved. -/
theorem Made.rename (h : view.Made temporary p data mode s s') (spec : view.Spec) (path : Bytes) :
    EndsAs (fun _ s'' => view.Replaced path data mode s s'')
      (fun _ s'' => view.Made temporary p data mode s s'')
      ((Files.rename temporary path : StateM σ _).run s') := by
  refine (spec.rename temporary path p data mode s' h.file).imp ?_ ?_
  · rintro - s'' ⟨q, hq, hfile, hgone, hothers⟩
    rw [h.only.places] at hq
    refine ⟨q, hq, hfile, fun r hr => ?_⟩
    by_cases hrp : r = p
    · -- Nothing stood where the temporary file was, and nothing stands there now.
      subst hrp
      exact (hgone hr).trans h.fresh.symm
    · exact (hothers r hrp hr).trans (h.only.others r hrp)
  · rintro - s'' hsame
    refine h.of_only ?_ ?_
    · exact ⟨fun q _ => congrFun hsame.entries q, hsame.places⟩
    · exact ⟨(congrFun hsame.places _).trans h.file.leads,
        (congrFun hsame.entries p).trans h.file.entry⟩

/-- When a new file is taken away, everything is as it was. -/
theorem Made.remove (h : view.Made temporary p data mode s s') (spec : view.Spec) :
    view.entry ((Files.remove temporary : StateM σ _).run s').2 = view.entry s := by
  obtain ⟨honly, hgone⟩ := spec.remove temporary p data mode s' h.file
  funext q
  by_cases hq : q = p
  · subst hq
    exact hgone.trans h.fresh.symm
  · exact (honly.others q hq).trans (h.only.others q hq)

end Made

/-- A file is replaced as well since an earlier state that looked the same. -/
theorem Replaced.of_same {path data : Bytes} {mode : Nat} {s s' s'' : σ} (h : view.Same s s')
    (hreplaced : view.Replaced path data mode s' s'') : view.Replaced path data mode s s'' := by
  obtain ⟨p, hp, hfile, hothers⟩ := hreplaced
  rw [h.places] at hp
  rw [h.entries] at hothers
  exact ⟨p, hp, hfile, hothers⟩

end FileView

variable [Files (StateM σ)]

/-- Filling a new file leaves it the only change. -/
theorem fill_yields (spec : view.Spec) {temporary : Bytes} {p : P} {old : Bytes} {oldMode : Nat}
    {s s' : σ} (h : view.Made temporary p old oldMode s s') (path data : Bytes) (mode : Nat) :
    Yields (fun _ s'' => view.Made temporary p data (mode % 0o1000) s s'')
      (fun _ s'' => ∃ data' mode', view.Made temporary p data' mode' s s'')
      (fill temporary path data mode) s' := by
  unfold fill
  refine (Yields.attempt (h.worksOn (spec.write temporary data))).bind fun _ s₁ h₁ => ?_
  exact Yields.attempt (h₁.worksOn (spec.setMode temporary mode))

/-- Filling a new file and moving it to its place replaces the file there, or leaves the new file as
the only change. -/
theorem fillAndMove_yields (spec : view.Spec) {temporary : Bytes} {p : P} {old : Bytes}
    {oldMode : Nat} {s s' : σ} (h : view.Made temporary p old oldMode s s') (path data : Bytes)
    (mode : Nat) :
    Yields (fun _ s'' => view.Replaced path data (mode % 0o1000) s s'')
      (fun _ s'' => ∃ data' mode', view.Made temporary p data' mode' s s'')
      (fillAndMove temporary path data mode) s' := by
  unfold fillAndMove
  refine ((fill_yields spec h path data mode).tryCatch fun e s₁ h₁ => ?_).bind fun _ s₂ h₂ => ?_
  · -- Closing may fail too, and the file is the only change either way.
    obtain ⟨_, _, h₁⟩ := h₁
    have hclose : ∃ data' mode', view.Made temporary p data' mode' s
        ((Files.close temporary : StateM σ _).run s₁).2 :=
      (h₁.worksOn (spec.close temporary)).behind (fun _ _ h => ⟨_, _, h⟩) fun _ _ h => h
    exact (Yields.lift hclose).bind fun _ s₃ h₃ => .throw h₃
  refine (Yields.attempt (h₂.worksOn (spec.close temporary))).bind fun _ s₃ h₃ => ?_
  refine Yields.attempt ((h₃.rename spec path).imp (fun _ _ hreplaced => hreplaced) ?_)
  intro _ s₄ h₄
  exact ⟨_, _, h₄⟩

/-- Replacing a file succeeds as a whole, or changes nothing. -/
theorem replaceFile_yields (spec : view.Spec) (path data : Bytes) (mode : Nat) (s : σ) :
    Yields (fun _ s' => view.Replaced path data (mode % 0o1000) s s')
      (fun _ s' => view.entry s' = view.entry s) (replaceFile path data mode) s := by
  have hmake : EndsAs
      (fun temporary s₁ => ∃ p old oldMode, view.Made temporary p old oldMode s s₁)
      (fun _ s₁ => view.entry s₁ = view.entry s)
      ((Files.makeTemporary (Path.parent path) (temporaryStem path) : StateM σ _).run s) :=
    (spec.makeTemporary _ _ s).imp (fun _ _ h => h) fun _ _ hsame => hsame.entries
  unfold replaceFile
  refine (Yields.attempt hmake).bind fun temporary s₁ h₁ => ?_
  obtain ⟨p, old, oldMode, hmade⟩ := h₁
  refine (fillAndMove_yields spec hmade path data mode).tryCatch fun e s₂ h₂ => ?_
  -- The temporary file is taken away before the failure is passed on.
  obtain ⟨_, _, hmade⟩ := h₂
  exact (Yields.lift (hmade.remove spec)).bind fun _ s₃ h₃ => .throw h₃

end StackScript
