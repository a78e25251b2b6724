import StackScript.Machine.Step

/-!
# Computations that correspond

Two computations that start in related states correspond if both give results, related together with
the states behind them, or both fail with the same reason in states that are related in another way.
The rules follow the ways in which computations are built, so what is shown of the parts of an
instruction holds of the whole.
-/

namespace StackScript

/-- Two results correspond: both are values, related with the states behind them, or both are
failures for the same reason. -/
def ResultsRelate (post : α → σ → β → τ → Prop) (fail : σ → τ → Prop) :
    EStateM.Result ε σ α → EStateM.Result ε τ β → Prop
  | .ok a s, .ok b t => post a s b t
  | .error e s, .error e' t => e = e' ∧ fail s t
  | _, _ => False

/-- Two computations from related states have results that correspond. -/
def Relates (pre : σ → τ → Prop) (post : α → σ → β → τ → Prop) (fail : σ → τ → Prop)
    (x : EStateM ε σ α) (y : EStateM ε τ β) : Prop :=
  ∀ s t, pre s t → ResultsRelate post fail (x s) (y t)

variable {ε σ τ α β α' β' : Type} {pre pre' : σ → τ → Prop} {fail : σ → τ → Prop}

/-- Results that correspond do so in weaker senses. -/
theorem ResultsRelate.imp {post post' : α → σ → β → τ → Prop} {fail' : σ → τ → Prop}
    {r : EStateM.Result ε σ α} {r' : EStateM.Result ε τ β} (h : ResultsRelate post fail r r')
    (hpost : ∀ a s b t, post a s b t → post' a s b t) (hfail : ∀ s t, fail s t → fail' s t) :
    ResultsRelate post' fail' r r' := by
  cases r <;> cases r'
  case ok.ok => exact hpost _ _ _ _ h
  case error.error => exact ⟨h.1, hfail _ _ h.2⟩
  all_goals exact h.elim

namespace Relates

/-- A weaker relation behind, a stronger one in front. -/
theorem imp {post post' : α → σ → β → τ → Prop} {x : EStateM ε σ α} {y : EStateM ε τ β}
    (h : Relates pre post fail x y) (hpre : ∀ s t, pre' s t → pre s t)
    (hpost : ∀ a s b t, post a s b t → post' a s b t) : Relates pre' post' fail x y :=
  fun s t hst => (h s t (hpre s t hst)).imp hpost fun _ _ hfail => hfail

/-- Related values are given. -/
theorem pure {post : α → σ → β → τ → Prop} {a : α} {b : β}
    (h : ∀ s t, pre s t → post a s b t) :
    Relates pre post fail (Pure.pure a : EStateM ε σ α) (Pure.pure b) := h

/-- Both fail alike. -/
theorem throw {post : α → σ → β → τ → Prop} (e : ε) (h : ∀ s t, pre s t → fail s t) :
    Relates pre post fail (MonadExcept.throw e : EStateM ε σ α) (MonadExcept.throw e) :=
  fun s t hst => ⟨rfl, h s t hst⟩

/-- Both change their states. -/
theorem modify {post : Unit → σ → Unit → τ → Prop} {f : σ → σ} {g : τ → τ}
    (h : ∀ s t, pre s t → post () (f s) () (g t)) :
    Relates pre post fail (modify f : EStateM ε σ Unit) (modify g) := h

/-- One pair of computations after another. -/
theorem bind {mid : α → σ → β → τ → Prop} {post : α' → σ → β' → τ → Prop}
    {x : EStateM ε σ α} {y : EStateM ε τ β} {f : α → EStateM ε σ α'} {g : β → EStateM ε τ β'}
    (h : Relates pre mid fail x y)
    (hrest : ∀ a b, Relates (fun s t => mid a s b t) post fail (f a) (g b)) :
    Relates pre post fail (x >>= f) (y >>= g) := by
  intro s t hst
  have hfirst := h s t hst
  change ResultsRelate post fail (EStateM.bind x f s) (EStateM.bind y g t)
  unfold EStateM.bind
  cases hx : x s with
  | ok a s' =>
    cases hy : y t with
    | ok b t' =>
      rw [hx, hy] at hfirst
      exact hrest a b s' t' hfirst
    | error e t' =>
      rw [hx, hy] at hfirst
      exact hfirst.elim
  | error e s' =>
    cases hy : y t with
    | ok b t' =>
      rw [hx, hy] at hfirst
      exact hfirst.elim
    | error e' t' =>
      rw [hx, hy] at hfirst
      exact hfirst

/-- Both look at their states. -/
theorem get {post : α → σ → β → τ → Prop} {f : σ → EStateM ε σ α} {g : τ → EStateM ε τ β}
    (h : ∀ s t, pre s t → ResultsRelate post fail (f s s) (g t t)) :
    Relates pre post fail (get >>= f) (get >>= g) := h

/-- A question with the same answer on both sides. -/
theorem ite {post : α → σ → β → τ → Prop} (c : Prop) [Decidable c] {x x' : EStateM ε σ α}
    {y y' : EStateM ε τ β} (h : c → Relates pre post fail x y)
    (h' : ¬c → Relates pre post fail x' y') :
    Relates pre post fail (if c then x else x') (if c then y else y') := by
  by_cases hc : c
  · rw [if_pos hc, if_pos hc]
    exact h hc
  · rw [if_neg hc, if_neg hc]
    exact h' hc

end Relates

/-! ## Computations that keep a relation -/

/-- Two computations from related states give related values and leave related states, also when
they fail. -/
def Corresponds (rel : σ → τ → Prop) (values : α → β → Prop) (x : EStateM ε σ α)
    (y : EStateM ε τ β) : Prop :=
  Relates rel (fun a s b t => values a b ∧ rel s t) rel x y

namespace Corresponds

variable {rel : σ → τ → Prop} {values : α → β → Prop} {values' : α' → β' → Prop}

/-- Corresponding values are given. -/
theorem pure {a : α} {b : β} (h : values a b) :
    Corresponds rel values (Pure.pure a : EStateM ε σ α) (Pure.pure b) :=
  fun _ _ hst => ⟨h, hst⟩

/-- Both fail alike. -/
theorem throw (e : ε) :
    Corresponds rel values (MonadExcept.throw e : EStateM ε σ α) (MonadExcept.throw e) :=
  fun _ _ hst => ⟨rfl, hst⟩

/-- One computation behind another, whatever the other leaves. -/
theorem then_relates {post : α' → σ → β' → τ → Prop} {x : EStateM ε σ α} {y : EStateM ε τ β}
    {f : α → EStateM ε σ α'} {g : β → EStateM ε τ β'} (h : Corresponds rel values x y)
    (hrest : ∀ a b, values a b → Relates rel post rel (f a) (g b)) :
    Relates rel post rel (x >>= f) (y >>= g) := by
  refine Relates.bind h fun a b s t hab => ?_
  obtain ⟨hvalues, hst⟩ := hab
  exact hrest a b hvalues s t hst

/-- One pair of computations after another. -/
theorem bind {x : EStateM ε σ α} {y : EStateM ε τ β} {f : α → EStateM ε σ α'}
    {g : β → EStateM ε τ β'} (h : Corresponds rel values x y)
    (hrest : ∀ a b, values a b → Corresponds rel values' (f a) (g b)) :
    Corresponds rel values' (x >>= f) (y >>= g) := h.then_relates hrest

/-- Both look at their states. -/
theorem get {f : σ → EStateM ε σ α} {g : τ → EStateM ε τ β}
    (h : ∀ s t, rel s t → Corresponds rel values (f s) (g t)) :
    Corresponds rel values (MonadStateOf.get >>= f) (MonadStateOf.get >>= g) :=
  fun s t hst => h s t hst s t hst

/-- Both change their states. -/
theorem modify {f : σ → σ} {g : τ → τ} (h : ∀ s t, rel s t → rel (f s) (g t)) :
    Corresponds rel Eq (modify f : EStateM ε σ Unit) (modify g : EStateM ε τ Unit) :=
  fun s t hst => ⟨rfl, h s t hst⟩

end Corresponds

end StackScript
