import StackScript.Proofs.Files.Steps

/-!
# Volumes meet the specification of file systems

No step makes a directory or takes one away, and a path is followed through directories only, so
paths lead to the same places before and behind every step. With that, each step of a volume does
what is asked of it, whatever the volume holds and whichever attempts it refuses: `view_spec`.
-/

namespace StackScript.Volume

variable {v w : Volume} {p q : Place} {path : Bytes}

/-- What can be seen of a volume. -/
def view : FileView Volume Place where
  entry := at?
  place v path := (v.target path).toOption
  printed := printed

/-! ## Paths -/

/-- The same directories stand in two volumes, and relative paths start at the same one. -/
structure SameDirectories (v w : Volume) : Prop where
  current : w.current = v.current
  iff : ∀ p, w.at? p = some .directory ↔ v.at? p = some .directory

/-- Having the same directories is symmetric. -/
theorem SameDirectories.symm (h : SameDirectories v w) : SameDirectories w v :=
  ⟨h.current.symm, fun p => (h.iff p).symm⟩

namespace SameDirectories

/-- A name leads from a place only if a directory stands there. -/
theorem enter_eq_ok (h : SameDirectories v w) {name : Bytes} (hq : v.enter p name = .ok q) :
    w.enter p name = .ok q := by
  unfold enter at hq ⊢
  cases hp : v.at? p with
  | none =>
    rw [hp] at hq
    cases hq
  | some e =>
    cases e with
    | directory =>
      rw [(h.iff p).mpr hp]
      rwa [hp] at hq
    | file data mode =>
      rw [hp] at hq
      cases hq

/-- The same paths can be walked. -/
theorem walk_eq_ok (h : SameDirectories v w) {names : List Bytes} (hq : v.walk p names = .ok q) :
    w.walk p names = .ok q := by
  induction names generalizing p with
  | nil => exact hq
  | cons name names ih =>
    unfold walk at hq ⊢
    rw [List.foldlM_cons] at hq ⊢
    cases hnext : v.enter p name with
    | error e =>
      rw [hnext] at hq
      cases hq
    | ok next =>
      rw [hnext] at hq
      rw [h.enter_eq_ok hnext]
      exact ih hq

/-- The same paths have targets. -/
theorem target_eq_ok (h : SameDirectories v w) (hp : v.target path = .ok p) :
    w.target path = .ok p := by
  unfold target at hp ⊢
  rw [h.current]
  split at hp
  · cases hp
  split at hp
  · cases hp
  split at hp
  · cases hp
  rename_i hempty hzero hlong
  rw [if_neg hempty, if_neg hzero, if_neg hlong]
  split at hp
  · rename_i habsolute
    rw [if_pos habsolute]
    exact h.walk_eq_ok hp
  · rename_i hrelative
    rw [if_neg hrelative]
    cases hstart : v.walk [] (v.current.splitOn Path.slash) with
    | error e =>
      rw [hstart] at hp
      cases hp
    | ok start =>
      rw [hstart] at hp
      rw [h.walk_eq_ok hstart]
      exact h.walk_eq_ok hp

/-- Paths have the same places. -/
theorem place_eq (h : SameDirectories v w) : view.place w = view.place v := by
  funext path
  change (w.target path).toOption = (v.target path).toOption
  cases hv : v.target path with
  | ok p => rw [h.target_eq_ok hv]
  | error e =>
    cases hw : w.target path with
    | ok p => cases hv.symm.trans (h.symm.target_eq_ok hw)
    | error e' => rfl

end SameDirectories

/-- The place that a path leads to. -/
theorem target_of_place (h : view.place v path = some p) : v.target path = .ok p := by
  change (v.target path).toOption = some p at h
  cases hp : v.target path with
  | ok q =>
    rw [hp] at h
    rw [Option.some.inj h]
  | error e =>
    rw [hp] at h
    cases h

/-! ## Changes of places -/

/-- The root is a directory. -/
theorem ne_nil_of_at?_ne (h : v.at? p ≠ some .directory) : p ≠ [] := by
  rintro rfl
  exact h rfl

/-- A file is no directory. -/
theorem at?_ne_of_fileAt {data : Bytes} {mode : Nat} (h : view.FileAt path p data mode v) :
    v.at? p ≠ some .directory := by
  intro hdirectory
  cases h.entry.symm.trans hdirectory

/-- A file in a place where no directory stands is no change of directories. -/
theorem sameDirectories_insert (h : v.at? p ≠ some .directory) (data : Bytes) (mode : Nat) :
    SameDirectories v (v.insert p (.file data mode)) where
  current := rfl
  iff q := by
    rw [at?_insert v (ne_nil_of_at?_ne h)]
    by_cases hq : q = p
    · subst hq
      simp [h]
    · rw [if_neg hq]

/-- A file that is taken away is no change of directories. -/
theorem sameDirectories_erase (h : v.at? p ≠ some .directory) : SameDirectories v (v.erase p) where
  current := rfl
  iff q := by
    rw [at?_erase v (ne_nil_of_at?_ne h)]
    by_cases hq : q = p
    · subst hq
      simp [h]
    · rw [if_neg hq]

/-- A file in a place where no directory stands is the only change. -/
theorem only_insert (h : v.at? p ≠ some .directory) (data : Bytes) (mode : Nat) :
    view.Only p v (v.insert p (.file data mode)) where
  others q hq := (at?_insert v (ne_nil_of_at?_ne h) _ q).trans (if_neg hq)
  places := (sameDirectories_insert h data mode).place_eq

/-- A file that is inserted is there. -/
theorem fileAt_insert (h : v.at? p ≠ some .directory) (hp : v.target path = .ok p) (data : Bytes)
    (mode : Nat) : view.FileAt path p data mode (v.insert p (.file data mode)) where
  leads := by
    rw [(sameDirectories_insert h data mode).place_eq]
    exact congrArg Except.toOption hp
  entry := (at?_insert v (ne_nil_of_at?_ne h) _ p).trans (if_pos rfl)

/-! ## Steps -/

/-- What a step does when it succeeds; a step that fails changes nothing. -/
theorem commit_endsAs {step : Volume → Except FileError Volume} {post : Unit → Volume → Prop}
    {fail : FileError → Volume → Prop} (hok : ∀ w, step v = .ok w → post () w)
    (herror : ∀ e, fail e v) : EndsAs post fail ((commit step).run v) := by
  change EndsAs post fail (commit step v)
  unfold commit
  split
  · rename_i w hstep
    exact .ok (hok w hstep)
  · exact .error (herror _)

/-- A file is made where nothing stands. -/
theorem make_eq_ok (h : v.make path = .ok w) :
    ∃ p, v.target path = .ok p ∧ v.at? p = none ∧ w = v.insert p (.file [] privateMode) := by
  unfold make at h
  split at h
  · cases h
  · cases h
  · rename_i p _ hp
    split at h
    · cases h
    · rename_i hnone
      cases h
      exact ⟨p, hp, hnone, rfl⟩

/-- A numbered file is made. -/
theorem makeNumbered_eq_ok {directory stem : Bytes} {tries n : Nat}
    (h : v.makeNumbered directory stem tries n = .ok (path, w)) : v.make path = .ok w := by
  induction tries generalizing n with
  | zero => cases h
  | succ tries ih =>
    rw [makeNumbered] at h
    split at h
    · rename_i hmake
      cases h
      exact hmake
    · split at h
      · exact ih h
      · cases h

/-- A temporary file is new. -/
theorem makeTemporary_endsAs (directory stem : Bytes) (v : Volume) :
    EndsAs (fun path w => ∃ p data mode, view.Made path p data mode v w)
      (fun _ w => view.Same v w)
      ((Files.makeTemporary directory stem : StateM Volume _).run v) := by
  simp only [Files.makeTemporary, StateT.run]
  split
  · rename_i path w hmake
    unfold makeTemporary at hmake
    split at hmake
    · cases hmake
    obtain ⟨p, hp, hnone, rfl⟩ := make_eq_ok (makeNumbered_eq_ok hmake)
    have hfile : v.at? p ≠ some .directory := by
      intro h
      cases hnone.symm.trans h
    exact .ok ⟨p, [], privateMode, hnone, only_insert hfile _ _, fileAt_insert hfile hp _ _⟩
  · exact .error (.refl v)

/-- A change of a file changes that file. -/
theorem change_worksOn (action : FileAction) (path : Bytes) (g : Bytes → Nat → Bytes × Nat) :
    view.WorksOn path g (commit fun v => v.change action path fun data mode =>
      .file (g data mode).1 (g data mode).2) := by
  intro p data mode v hfile
  have hp : v.target path = .ok p := target_of_place hfile.leads
  have hentry : v.at? p = some (.file data mode) := hfile.entry
  have hdirectory := at?_ne_of_fileAt hfile
  refine commit_endsAs ?_ fun e => ⟨.refl p v, data, mode, hfile⟩
  intro w hchange
  unfold change at hchange
  split at hchange
  · cases hchange
  · cases hchange
  · rename_i q _ hq
    obtain rfl : p = q := Except.ok.inj (hp.symm.trans hq)
    rw [hentry] at hchange
    cases hchange
    exact ⟨only_insert hdirectory _ _, fileAt_insert hdirectory hp _ _⟩

/-- What a renaming does. -/
theorem rename_eq_ok {source target : Bytes} (h : v.rename source target = .ok w) :
    ∃ p q e, v.target source = .ok p ∧ v.target target = .ok q ∧ v.at? p = some e ∧
      v.at? q ≠ some .directory ∧ w = (v.erase p).insert q e := by
  unfold rename at h
  simp only at h
  split at h
  · cases h
  · cases h
  · cases h
  · rename_i p q _ hp hq
    split at h
    · cases h
    · cases h
    · rename_i e hentry hdirectory
      cases h
      exact ⟨p, q, e, hp, hq, hentry, hdirectory, rfl⟩

/-- A file that is moved leaves its place and takes another, where no directory stands. -/
theorem rename_endsAs (source target : Bytes) (data : Bytes) (mode : Nat)
    (hfile : view.FileAt source p data mode v) :
    EndsAs
      (fun _ w => ∃ q, view.place v target = some q ∧ view.entry w q = some (.file data mode) ∧
        (p ≠ q → view.entry w p = none) ∧
        ∀ r, r ≠ p → r ≠ q → view.entry w r = view.entry v r)
      (fun _ w => view.Same v w) ((Files.rename source target : StateM Volume _).run v) := by
  have hp : v.target source = .ok p := target_of_place hfile.leads
  have hentry : v.at? p = some (.file data mode) := hfile.entry
  have hsource : p ≠ [] := ne_nil_of_at?_ne (at?_ne_of_fileAt hfile)
  refine commit_endsAs ?_ fun _ => .refl v
  intro w hrename
  obtain ⟨p', q, e, hp', hq, hentry', hdirectory, rfl⟩ := rename_eq_ok hrename
  obtain rfl : p = p' := Except.ok.inj (hp.symm.trans hp')
  obtain rfl : .file data mode = e := Option.some.inj (hentry.symm.trans hentry')
  have hgone : ∀ r, (v.erase p).at? r = if r = p then none else v.at? r := at?_erase v hsource
  have hmoved : ∀ r, ((v.erase p).insert q (.file data mode)).at? r =
      if r = q then some (.file data mode) else (v.erase p).at? r :=
    at?_insert (v.erase p) (ne_nil_of_at?_ne hdirectory) _
  refine ⟨q, congrArg Except.toOption hq, (hmoved q).trans (if_pos rfl), ?_, ?_⟩
  · -- A file that is moved to its own place is taken away first and is there again.
    intro hne
    exact (hmoved p).trans ((if_neg hne).trans ((hgone p).trans (if_pos rfl)))
  · intro r hrp hrq
    exact (hmoved r).trans ((if_neg hrq).trans ((hgone r).trans (if_neg hrp)))

/-- A file that is taken away is gone. -/
theorem remove_file (data : Bytes) (mode : Nat) (hfile : view.FileAt path p data mode v) :
    view.Only p v (v.remove path) ∧ view.entry (v.remove path) p = none := by
  have hp : v.target path = .ok p := target_of_place hfile.leads
  have hentry : v.at? p = some (.file data mode) := hfile.entry
  have hdirectory := at?_ne_of_fileAt hfile
  have hremove : v.remove path = v.erase p := by
    unfold remove
    simp only [hp, hentry]
  have hgone : ∀ q, (v.erase p).at? q = if q = p then none else v.at? q :=
    at?_erase v (ne_nil_of_at?_ne hdirectory)
  rw [hremove]
  exact ⟨⟨fun q hq => (hgone q).trans (if_neg hq), (sameDirectories_erase hdirectory).place_eq⟩,
    (hgone p).trans (if_pos rfl)⟩

/-- What is written to the standard output goes behind what was written there. -/
theorem print_endsAs (data : Bytes) (v : Volume) :
    EndsAs
      (fun _ w => view.printed w = view.printed v ++ data ∧ view.entry w = view.entry v)
      (fun _ w => view.entry w = view.entry v) ((Files.print data : StateM Volume _).run v) := by
  refine commit_endsAs ?_ fun _ => rfl
  intro w hprint
  unfold print at hprint
  split at hprint
  · cases hprint
  · cases hprint
    exact ⟨rfl, rfl⟩

/-- Every volume does what is asked of a file system. -/
theorem view_spec : view.Spec where
  workingDirectory := .refl
  isPresent _ := .refl
  read _ := .refl
  makeTemporary := makeTemporary_endsAs
  write path data := change_worksOn (.writeFile path) path fun _ mode => (data, mode)
  setMode path mode := change_worksOn (.setMode path) path fun data _ => (data, mode % 0o1000)
  close path := by
    intro p data mode v hfile
    change EndsAs _ _ (v.close path, v)
    cases v.close path with
    | ok _ => exact .ok ⟨.refl p v, hfile⟩
    | error e => exact .error ⟨.refl p v, data, mode, hfile⟩
  rename source target _ data mode _ hfile := rename_endsAs source target data mode hfile
  remove _ _ data mode _ hfile := remove_file data mode hfile
  print := print_endsAs

end StackScript.Volume
