import StackScript.Number.Binary64

/-!
# Equality of numbers

Equality is computed on unpacked numbers. Numbers that compare as equal are unpacked alike, but for
the signs of the two zeros. So equality is symmetric and transitive, and what fails to equal itself,
as a NaN does, equals nothing.
-/

namespace StackScript.Binary64

open Float.Model

/-- Numbers that compare as equal are unpacked alike, unless both are zeros. -/
theorem eq_of_compare {u v : UnpackedFloat} (h : u.compare v = some .eq) :
    u = v ∨ ∃ s s', u = .zero s ∧ v = .zero s' := by
  -- Numbers of one sign are compared by exponent first and then by significand.
  have hparts {e e' : Int} {m m' : Nat} (h : (compare e e').then (compare m m') = .eq) :
      e = e' ∧ m = m' := by
    rw [Ordering.then_eq_eq] at h
    exact ⟨Std.LawfulEqCmp.eq_of_compare h.1, Std.LawfulEqCmp.eq_of_compare h.2⟩
  cases u with
  | notANumber => cases h
  | infinity s =>
    cases v with
    | infinity s' => cases s <;> cases s' <;> cases h <;> exact .inl rfl
    | _ => cases s <;> cases h
  | zero s =>
    cases v with
    | zero s' => exact .inr ⟨s, s', rfl, rfl⟩
    | finite s' m e hm => cases s' <;> cases h
    | infinity s' => cases s' <;> cases h
    | notANumber => cases h
  | finite s m e hm =>
    cases v with
    | zero s' => cases s <;> cases h
    | infinity s' => cases s' <;> cases s <;> cases h
    | notANumber => cases s <;> cases h
    | finite s' m' e' hm' =>
      cases s with
      | positive =>
        cases s' with
        | positive =>
          obtain ⟨rfl, rfl⟩ := hparts (Option.some.inj h)
          exact .inl rfl
        | negative => cases h
      | negative =>
        cases s' with
        | positive => cases h
        | negative =>
          obtain ⟨rfl, rfl⟩ := hparts (by simpa [Ordering.swap_eq_eq] using Option.some.inj h)
          exact .inl rfl

/-- Numbers are equal if they compare as equal when unpacked. -/
theorem eq_iff_compare {x y : Binary64} :
    x.eq y = true ↔ x.toFloat.toModel.unpack.compare y.toFloat.toModel.unpack = some .eq := by
  have hdef : x.eq y =
      (x.toFloat.toModel.unpack.compare y.toFloat.toModel.unpack == some .eq) := rfl
  rw [hdef, beq_iff_eq]

/-- Being equal is symmetric. -/
theorem eq_symm {x y : Binary64} (h : x.eq y = true) : y.eq x = true := by
  rw [eq_iff_compare] at h ⊢
  rcases eq_of_compare h with hsame | ⟨s, s', hx, hy⟩
  · rw [hsame] at h ⊢
    exact h
  · rw [hx, hy]
    rfl

/-- Being equal is transitive. -/
theorem eq_trans {x y z : Binary64} (h : x.eq y = true) (h' : y.eq z = true) : x.eq z = true := by
  rw [eq_iff_compare] at h h' ⊢
  rcases eq_of_compare h with hsame | ⟨s, s', hx, hy⟩
  · rw [hsame]
    exact h'
  · rcases eq_of_compare h' with hsame | ⟨_, _, -, hz⟩
    · rw [← hsame]
      exact h
    · rw [hx, hz]
      rfl

end StackScript.Binary64
