import StackScript.Files.Replace
import StackScript.Files.Volume

/-!
# What the steps of a file system do

A file system is any type of states on which the steps of `Files` act. A `FileView` says what stands
at each place in a state and which place a path leads to, and `FileView.Spec` states what each step
must do to that: looking changes nothing, a temporary file is a new one, work on a file touches that
file only and may leave anything in it when it fails, and moving a file happens as a whole or not at
all. The states may hold more than a view shows, such as the answers that the system has yet to
give, so the same step need not fail twice.

The rest are rules for computations that are built from steps: `Reads` for those that change
nothing, and `Yields` for what holds behind a result or a failure.
-/

namespace StackScript

variable {σ P α β ε ε' : Type}

/-! ## Specification -/

/-- What is asked of the end of a computation: of the result and the state behind it, or of the
reason of the failure and the state that it leaves. -/
inductive EndsAs (post : α → σ → Prop) (fail : ε → σ → Prop) : Except ε α × σ → Prop
  | ok {a : α} {s : σ} (h : post a s) : EndsAs post fail (.ok a, s)
  | error {e : ε} {s : σ} (h : fail e s) : EndsAs post fail (.error e, s)

/-- What can be seen of the states of a file system. -/
structure FileView (σ P : Type) where
  /-- What stands at a place. -/
  entry : σ → P → Option Entry
  /-- The place that a path leads to. Nothing need stand there. -/
  place : σ → Bytes → Option P
  /-- What was written to the standard output. -/
  printed : σ → Bytes

namespace FileView

variable (view : FileView σ P)

/-- Everything stands where it stood, paths lead where they led, and nothing was written out. -/
structure Same (s s' : σ) : Prop where
  entries : view.entry s' = view.entry s
  places : view.place s' = view.place s
  printed : view.printed s' = view.printed s

/-- Nothing changes but what stands at a place, and paths lead where they led. -/
structure Only (p : P) (s s' : σ) : Prop where
  others : ∀ q, q ≠ p → view.entry s' q = view.entry s q
  places : view.place s' = view.place s

/-- A path leads to a file at a place. -/
structure FileAt (path : Bytes) (p : P) (data : Bytes) (mode : Nat) (s : σ) : Prop where
  leads : view.place s path = some p
  entry : view.entry s p = some (.file data mode)

/-- A file was made where nothing stood, at the place that a path leads to, and nothing else has
changed since. -/
structure Made (path : Bytes) (p : P) (data : Bytes) (mode : Nat) (s s' : σ) : Prop where
  fresh : view.entry s p = none
  only : view.Only p s s'
  file : view.FileAt path p data mode s'

/-- A file stands at the place that a path led to, whatever stood there before, and nothing else has
changed since. -/
def Replaced (path data : Bytes) (mode : Nat) (s s' : σ) : Prop :=
  ∃ p, view.place s path = some p ∧ view.entry s' p = some (.file data mode) ∧
    ∀ q, q ≠ p → view.entry s' q = view.entry s q

/-- A step changes nothing. -/
def Reads (x : StateM σ α) : Prop := ∀ s, view.Same s (x.run s).2

/-- A step works on the file that a path leads to and changes nothing else. If it succeeds, the
contents and the mode become what `change` makes of them; if it fails, they may be anything. -/
def WorksOn (path : Bytes) (change : Bytes → Nat → Bytes × Nat)
    (x : StateM σ (Except FileError Unit)) : Prop :=
  ∀ p data mode s, view.FileAt path p data mode s →
    EndsAs
      (fun _ s' => view.Only p s s' ∧
        view.FileAt path p (change data mode).1 (change data mode).2 s')
      (fun _ s' => view.Only p s s' ∧ ∃ data' mode', view.FileAt path p data' mode' s') (x.run s)

/-- What the steps of a file system must do. -/
structure Spec [Files (StateM σ)] : Prop where
  workingDirectory : view.Reads Files.workingDirectory
  isPresent : ∀ path, view.Reads (Files.isPresent path)
  read : ∀ path, view.Reads (Files.read path)
  /-- A temporary file is made where nothing stands, at the place that its path leads to; a failed
  attempt makes none. -/
  makeTemporary : ∀ directory stem s,
    EndsAs
      (fun path s' => ∃ p data mode, view.Made path p data mode s s') (fun _ s' => view.Same s s')
      ((Files.makeTemporary directory stem : StateM σ _).run s)
  write : ∀ path data, view.WorksOn path (fun _ mode => (data, mode)) (Files.write path data)
  /-- Only the bits of the permissions count. -/
  setMode : ∀ path mode,
    view.WorksOn path (fun data _ => (data, mode % 0o1000)) (Files.setMode path mode)
  close : ∀ path, view.WorksOn path (fun data mode => (data, mode)) (Files.close path)
  /-- A file that is moved takes the place that the target leads to, whatever stood there, and
  leaves its own; a failed move changes nothing. -/
  rename : ∀ source target p data mode s, view.FileAt source p data mode s →
    EndsAs
      (fun _ s' => ∃ q, view.place s target = some q ∧ view.entry s' q = some (.file data mode) ∧
        (p ≠ q → view.entry s' p = none) ∧
        ∀ r, r ≠ p → r ≠ q → view.entry s' r = view.entry s r)
      (fun _ s' => view.Same s s') ((Files.rename source target : StateM σ _).run s)
  /-- A file that is taken away is gone, and nothing else is. -/
  remove : ∀ path p data mode s, view.FileAt path p data mode s →
    view.Only p s ((Files.remove path : StateM σ _).run s).2 ∧
      view.entry ((Files.remove path : StateM σ _).run s).2 p = none
  /-- What is written to the standard output goes behind what was written there, and to no file; a
  failed attempt may have written a part. -/
  print : ∀ data s,
    EndsAs
      (fun _ s' => view.printed s' = view.printed s ++ data ∧ view.entry s' = view.entry s)
      (fun _ s' => view.entry s' = view.entry s) ((Files.print data : StateM σ _).run s)

variable {view}

/-- Nothing changes if nothing is done. -/
theorem Same.refl (s : σ) : view.Same s s := ⟨rfl, rfl, rfl⟩

/-- Two steps that change nothing change nothing. -/
theorem Same.trans {s s' s'' : σ} (h : view.Same s s') (h' : view.Same s' s'') :
    view.Same s s'' :=
  ⟨h'.entries.trans h.entries, h'.places.trans h.places, h'.printed.trans h.printed⟩

/-- Nothing changes if nothing is done. -/
theorem Only.refl (p : P) (s : σ) : view.Only p s s := ⟨fun _ _ => rfl, rfl⟩

/-! ## Computations that change nothing -/

namespace Reads

/-- A value changes nothing. -/
theorem pure (a : α) : view.Reads (Pure.pure a : StateM σ α) := Same.refl

/-- Reading after reading is reading. -/
theorem bind {x : StateM σ α} {f : α → StateM σ β} (h : view.Reads x)
    (hrest : ∀ a, view.Reads (f a)) : view.Reads (x >>= f) :=
  fun s => (h s).trans (hrest _ _)

/-- A decision between readings is reading. -/
theorem ite {c : Prop} [Decidable c] {x y : StateM σ α} (h : view.Reads x) (h' : view.Reads y) :
    view.Reads (if c then x else y) := by
  split
  · exact h
  · exact h'

end Reads

/-- A computation changes nothing, whether it fails or not. -/
def ReadsOrFails (view : FileView σ P) (x : ExceptT ε (StateM σ) α) : Prop := view.Reads x.run

namespace ReadsOrFails

/-- A value changes nothing. -/
theorem pure (a : α) : view.ReadsOrFails (Pure.pure a : ExceptT ε (StateM σ) α) := Reads.pure _

/-- A failure changes nothing. -/
theorem throw (e : ε) : view.ReadsOrFails (throw e : ExceptT ε (StateM σ) α) := Reads.pure _

/-- Reading after reading is reading. -/
theorem bind {x : ExceptT ε (StateM σ) α} {f : α → ExceptT ε (StateM σ) β}
    (h : view.ReadsOrFails x) (hrest : ∀ a, view.ReadsOrFails (f a)) :
    view.ReadsOrFails (x >>= f) := by
  change view.Reads (x.run >>= ExceptT.bindCont f)
  refine Reads.bind h fun r => ?_
  cases r with
  | ok a => exact hrest a
  | error e => exact Reads.pure _

/-- Reading may be used where there are failures. -/
theorem lift {x : StateM σ α} (h : view.Reads x) :
    view.ReadsOrFails (monadLift x : ExceptT ε (StateM σ) α) := Reads.bind h fun _ => Reads.pure _

/-- Reading may fail. -/
theorem attempt (cause : FileError → ε) {x : StateM σ (Except FileError α)} (h : view.Reads x) :
    view.ReadsOrFails (attempt cause x) := Reads.bind h fun _ => Reads.pure _

/-- The failures of reading may be told in another way. -/
theorem adapt (f : ε → ε') {x : ExceptT ε (StateM σ) α} (h : view.ReadsOrFails x) :
    view.ReadsOrFails (x.adapt f) := Reads.bind h fun _ => Reads.pure _

/-- A decision between readings is reading. -/
theorem ite {c : Prop} [Decidable c] {x y : ExceptT ε (StateM σ) α} (h : view.ReadsOrFails x)
    (h' : view.ReadsOrFails y) : view.ReadsOrFails (if c then x else y) := Reads.ite h h'

end ReadsOrFails

end FileView

/-! ## Computations that end as asked -/

/-- A computation that starts in a state ends as asked. -/
def Yields (post : α → σ → Prop) (fail : ε → σ → Prop) (x : ExceptT ε (StateM σ) α) (s : σ) :
    Prop := EndsAs post fail (x.run.run s)

/-- Less may be asked of an end. -/
theorem EndsAs.imp {post post' : α → σ → Prop} {fail fail' : ε → σ → Prop} {r : Except ε α × σ}
    (h : EndsAs post fail r) (hpost : ∀ a s, post a s → post' a s)
    (hfail : ∀ e s, fail e s → fail' e s) : EndsAs post' fail' r := by
  cases h with
  | ok h => exact .ok (hpost _ _ h)
  | error h => exact .error (hfail _ _ h)

/-- What holds of the state that a computation ends in, whether it fails or not. -/
theorem EndsAs.behind {post : α → σ → Prop} {fail : ε → σ → Prop} {q : σ → Prop}
    {r : Except ε α × σ} (h : EndsAs post fail r) (hpost : ∀ a s, post a s → q s)
    (hfail : ∀ e s, fail e s → q s) : q r.2 := by
  cases h with
  | ok h => exact hpost _ _ h
  | error h => exact hfail _ _ h

namespace Yields

variable {post : α → σ → Prop} {fail : ε → σ → Prop} {s : σ}

/-- A value is given in the state that there is. -/
theorem pure {a : α} (h : post a s) : Yields post fail (Pure.pure a) s := .ok h

/-- A failure is left in the state that there is. -/
theorem throw {e : ε} (h : fail e s) : Yields post fail (MonadExcept.throw e) s := .error h

/-- One computation after another. -/
theorem bind {mid : β → σ → Prop} {x : ExceptT ε (StateM σ) β} {f : β → ExceptT ε (StateM σ) α}
    (h : Yields mid fail x s) (hrest : ∀ b s', mid b s' → Yields post fail (f b) s') :
    Yields post fail (x >>= f) s := by
  change EndsAs post fail ((ExceptT.bindCont f (x.run.run s).1).run (x.run.run s).2)
  unfold Yields at h
  generalize x.run.run s = r at h ⊢
  cases h with
  | ok h => exact hrest _ _ h
  | error h => exact .error h

/-- A computation whose failure is given a cause. -/
theorem adapt {f : ε' → ε} {x : ExceptT ε' (StateM σ) α}
    (h : Yields post (fun e => fail (f e)) x s) : Yields post fail (x.adapt f) s := by
  change EndsAs post fail (Except.mapError f (x.run.run s).1, (x.run.run s).2)
  unfold Yields at h
  generalize x.run.run s = r at h ⊢
  cases h with
  | ok h => exact .ok h
  | error h => exact .error h

/-- A step of a file system whose failure is given a cause. -/
theorem attempt {cause : FileError → ε} {x : StateM σ (Except FileError α)}
    (h : EndsAs post (fun e => fail (cause e)) (x.run s)) : Yields post fail (attempt cause x) s :=
  adapt (x := ExceptT.mk x) h

/-- A computation behind whose failure another one cleans up. -/
theorem tryCatch {mid : ε → σ → Prop} {x : ExceptT ε (StateM σ) α}
    {handle : ε → ExceptT ε (StateM σ) α} (h : Yields post mid x s)
    (hhandle : ∀ e s', mid e s' → Yields post fail (handle e) s') :
    Yields post fail (MonadExcept.tryCatch x handle) s := by
  unfold Yields at h ⊢
  rw [ExceptT.run_tryCatch, StateT.run_bind]
  generalize x.run.run s = r at h ⊢
  cases h with
  | ok h => exact .ok h
  | error h => exact hhandle _ _ h

/-- A step that cannot fail. -/
theorem lift {x : StateM σ α} (h : post (x.run s).1 (x.run s).2) :
    Yields post fail (monadLift x) s := .ok h

end Yields

/-- A computation that changes nothing ends in a state that looks as an earlier one did, if it
begins in one. -/
theorem FileView.ReadsOrFails.yields {view : FileView σ P} {x : ExceptT ε (StateM σ) α}
    (h : view.ReadsOrFails x) {s₀ s : σ} (hs : view.Same s₀ s) :
    Yields (fun a s' => x.run.run s = (.ok a, s') ∧ view.Same s₀ s')
      (fun _ s' => view.entry s' = view.entry s₀) x s := by
  have hsame : view.Same s₀ (x.run.run s).2 := hs.trans (h s)
  unfold Yields
  generalize x.run.run s = r at hsame
  obtain ⟨r, s'⟩ := r
  cases r with
  | ok a => exact .ok ⟨rfl, hsame⟩
  | error e => exact .error hsame.entries

end StackScript
