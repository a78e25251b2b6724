import StackScript.Machine.Host
import StackScript.Proofs.Machine.Ensures

/-!
# What the standard functions keep

A standard function that is given values gives one back, whatever the number of its arguments. It
makes no array and sets no cell of one, and it puts only what it was given into a global variable.
So it keeps every property of worlds that does not depend on the console, the random numbers and the
clock, and that setting a global variable keeps (`standard_keeps`).
-/

namespace StackScript.Host

variable {α β : Type} {inv : World → Prop} {held : Cell → Prop} {allowed : HostError → Prop}

/-- A property of worlds, one of cells and one of failures that the standard functions keep. -/
structure Respected (inv : World → Prop) (held : Cell → Prop) (allowed : HostError → Prop) :
    Prop where
  console : ∀ {w : World} (c : Console), inv w → inv { w with console := c }
  generator : ∀ {w : World} (g : Generator), inv w → inv { w with generator := g }
  clock : ∀ {w : World} (c : Clock), inv w → inv { w with clock := c }
  global : ∀ {w : World} (name : Bytes), inv w → held (w.global name)
  setGlobal : ∀ {w : World} (name : Bytes) {c : Cell}, inv w → held c → inv (w.setGlobal name c)
  scalar : ∀ {v : Value}, v.kind ≠ .array → held (some v)
  /-- A missing value is a failure where none may be missing. -/
  missing : held none → allowed .missing
  outputFull : allowed .outputFull
  inputFailed : allowed .inputFailed

/-- A computation of the host keeps a property of worlds, also when it fails, which it does in an
allowed way, and what it gives has a property. -/
abbrev Keeps (inv : World → Prop) (allowed : HostError → Prop) (values : α → Prop) (x : Host α) :
    Prop :=
  Ensures inv (fun a w => values a ∧ inv w) (fun e w => allowed e ∧ inv w) x

namespace Keeps

variable {values : α → Prop} {c : Cell} {cs : List Cell}

/-- A value. -/
theorem pure {a : α} (h : values a) : Keeps inv allowed values (Pure.pure a) :=
  Ensures.pure fun _ hw => ⟨h, hw⟩

/-- Two computations in sequence. -/
theorem bind {values' : β → Prop} {x : Host α} {f : α → Host β} (h : Keeps inv allowed values x)
    (hrest : ∀ a, values a → Keeps inv allowed values' (f a)) :
    Keeps inv allowed values' (x >>= f) :=
  Ensures.bind h fun a w hw => hrest a hw.1 w hw.2

/-- A computation that looks at the world. -/
theorem get {f : World → Host α} (h : ∀ w, inv w → Keeps inv allowed values (f w)) :
    Keeps inv allowed values (get >>= f) := fun w hw => h w hw w hw

variable (r : Respected inv held allowed)
include r

/-- A result that is no array. -/
theorem scalar {v : Value} (h : v.kind ≠ .array) :
    Keeps inv allowed held (Pure.pure (some v)) :=
  pure (r.scalar h)

/-- The value of an argument. -/
theorem value (hc : held c) : Keeps inv allowed (fun _ => True) (Host.value c) := by
  cases c with
  | none => exact Ensures.throw fun _ hw => ⟨r.missing hc, hw⟩
  | some v => exact pure trivial

/-- The text of an argument. -/
theorem text (hc : held c) : Keeps inv allowed (fun _ => True) (Host.text c) :=
  (value r hc).bind fun _ _ => get fun _ _ => pure trivial

/-- A text is written. -/
theorem write (s : Bytes) : Keeps inv allowed (fun _ => True) (Host.write s) := by
  intro w hw
  unfold Host.write
  split
  · exact ⟨trivial, r.console _ hw⟩
  · exact ⟨r.outputFull, hw⟩

/-- Arguments are written. -/
theorem writeAll (hcs : ∀ c ∈ cs, held c) :
    Keeps inv allowed (fun _ => True) (Host.writeAll cs) := by
  induction cs with
  | nil => exact pure trivial
  | cons c cs ih =>
    obtain ⟨hc, hcs⟩ := List.forall_mem_cons.mp hcs
    exact (text r hc).bind fun s _ => (write r s).bind fun _ _ => ih hcs

/-- A random number is drawn. -/
theorem random (draw : Generator → α × Generator) :
    Keeps inv allowed (fun _ => True) (Host.random draw) :=
  fun _ hw => ⟨trivial, r.generator _ hw⟩

/-- A random number between two values is drawn. -/
theorem randomBetween (integer : Bool) {lo hi : Cell} (hlo : held lo) (hhi : held hi) :
    Keeps inv allowed held (Host.randomBetween integer lo hi) := by
  refine (value r hlo).bind fun a _ => (value r hhi).bind fun b _ => ?_
  cases integer with
  | true => exact (random r _).bind fun k _ => scalar r (by simp [Value.kind])
  | false => exact (random r _).bind fun x _ => scalar r (by simp [Value.kind])

end Keeps

/-- A function of the host that keeps a property of worlds, and gives a cell with a property if its
arguments have it. -/
abbrev KeepsAll (inv : World → Prop) (held : Cell → Prop) (allowed : HostError → Prop)
    (run : List Cell → Host Cell) : Prop :=
  ∀ args, (∀ c ∈ args, held c) → Keeps inv allowed held (run args)

section

variable (r : Respected inv held allowed)
include r

/-- Reading a line, behind what is written. -/
theorem input_keeps : KeepsAll inv held allowed input := by
  intro args hargs
  refine (Keeps.writeAll r hargs).bind fun _ _ => Keeps.get fun w hw => ?_
  cases w.console.readLine? with
  | none => exact Ensures.throw fun _ hw => ⟨r.inputFailed, hw⟩
  | some line => exact fun _ _ => ⟨r.scalar (by simp [Value.kind]), r.console _ hw⟩

/-- What is made of the first argument. -/
theorem ofFirst_keeps {default : Value} {f : Value → Value} (hdefault : default.kind ≠ .array)
    (hf : ∀ v, (f v).kind ≠ .array) : KeepsAll inv held allowed (ofFirst default f) := by
  intro args hargs
  cases args with
  | nil => exact Keeps.scalar r hdefault
  | cons c cs =>
    exact (Keeps.value r (hargs c List.mem_cons_self)).bind fun v _ => Keeps.scalar r (hf v)

/-- A dimension of an array. -/
theorem dimension_keeps (f : Grid → Nat) : KeepsAll inv held allowed (dimension f) := by
  intro args _
  unfold dimension
  split
  · exact Keeps.get fun _ _ => Keeps.scalar r (by simp [Value.kind])
  · exact Keeps.scalar r (by decide)

/-- A random number. -/
theorem randomNumber_keeps : KeepsAll inv held allowed randomNumber := by
  intro args hargs
  rcases args with _ | ⟨c, _ | ⟨d, cs⟩⟩
  · exact (Keeps.random r _).bind fun _ _ => Keeps.scalar r (by simp [Value.kind])
  · have hc := hargs c List.mem_cons_self
    exact (Keeps.value r hc).bind fun _ _ => Keeps.randomBetween r _ (r.scalar (by decide)) hc
  · have hc := hargs c List.mem_cons_self
    have hd := hargs d (List.mem_cons_of_mem _ List.mem_cons_self)
    exact (Keeps.value r hc).bind fun _ _ => Keeps.randomBetween r _ hc hd

/-- A colour is set. -/
theorem setColour_keeps (base : Nat) : KeepsAll inv held allowed (setColour base) := by
  intro args hargs
  cases args with
  | nil => exact Keeps.scalar r (by decide)
  | cons c cs =>
    refine (Keeps.text r (hargs c List.mem_cons_self)).bind fun name _ => ?_
    cases colours.lookup name with
    | none => exact Keeps.scalar r (by simp [Value.kind])
    | some k => exact (Keeps.write r _).bind fun _ _ => Keeps.scalar r (by simp [Value.kind])

/-- The title is set. -/
theorem setTitle_keeps : KeepsAll inv held allowed setTitle := by
  intro args hargs
  cases args with
  | nil => exact Keeps.scalar r (by decide)
  | cons c cs =>
    have hc := hargs c List.mem_cons_self
    exact (Keeps.text r hc).bind fun _ _ => (Keeps.write r _).bind fun _ _ => Keeps.pure hc

/-- The cursor is moved. -/
theorem setCursor_keeps : KeepsAll inv held allowed setCursor := by
  intro args hargs
  unfold setCursor
  split
  · rename_i x y
    have hx := hargs x List.mem_cons_self
    have hy := hargs y (List.mem_cons_of_mem _ List.mem_cons_self)
    exact (Keeps.value r hx).bind fun _ _ => (Keeps.value r hy).bind fun _ _ =>
      (Keeps.write r _).bind fun _ _ => Keeps.scalar r (by decide)
  · exact Keeps.scalar r (by decide)

/-- A global variable is read. -/
theorem getGlobal_keeps : KeepsAll inv held allowed getGlobal := by
  intro args hargs
  cases args with
  | nil => exact Keeps.scalar r (by decide)
  | cons c cs =>
    refine (Keeps.text r (hargs c List.mem_cons_self)).bind fun name _ => Keeps.get fun w hw => ?_
    exact Keeps.pure (r.global name hw)

/-- A global variable is set. -/
theorem setGlobal_keeps : KeepsAll inv held allowed setGlobal := by
  intro args hargs
  rcases args with _ | ⟨c, _ | ⟨v, cs⟩⟩
  · exact Keeps.scalar r (by decide)
  · exact Keeps.scalar r (by decide)
  · have hv := hargs v (List.mem_cons_of_mem _ List.mem_cons_self)
    refine (Keeps.text r (hargs c List.mem_cons_self)).bind fun name _ => ?_
    exact Ensures.bind (Ensures.modify fun w hw => r.setGlobal name hw hv) fun _ => Keeps.pure hv

/-- Every standard function keeps what they respect. -/
theorem standard_keeps : ∀ f ∈ standard.toArray, KeepsAll inv held allowed f.run := by
  intro f hf
  simp only [standard, List.mem_toArray, List.mem_cons, List.not_mem_nil, or_false] at hf
  rcases hf with rfl | rfl | rfl | rfl | rfl | rfl | rfl | rfl | rfl | rfl | rfl | rfl | rfl | rfl |
    rfl | rfl | rfl | rfl | rfl
  · exact fun args hargs => (Keeps.writeAll r hargs).bind fun _ _ => Keeps.scalar r (by decide)
  · exact input_keeps r
  · exact ofFirst_keeps r (by decide) fun v => by simp [Value.kind]
  · exact ofFirst_keeps r (by decide) fun v => by simp [Value.kind]
  · intro args hargs
    cases args with
    | nil => exact Keeps.scalar r (by decide)
    | cons c cs =>
      exact (Keeps.text r (hargs c List.mem_cons_self)).bind fun _ _ =>
        Keeps.scalar r (by simp [Value.kind])
  · exact ofFirst_keeps r (by decide) fun v => by simp [Value.kind]
  · exact ofFirst_keeps r (by decide) fun v => by simp [Value.kind]
  · exact dimension_keeps r _
  · exact dimension_keeps r _
  · exact randomNumber_keeps r
  · exact setTitle_keeps r
  · exact setColour_keeps r _
  · exact setColour_keeps r _
  · exact setCursor_keeps r
  · exact fun _ _ => Keeps.scalar r (by decide)
  · exact getGlobal_keeps r
  · exact setGlobal_keeps r
  · exact fun _ _ w hw => ⟨r.scalar (by simp [Value.kind]), r.clock w.clock.next hw⟩
  · exact fun _ _ => Keeps.scalar r (by decide)

end

end StackScript.Host
