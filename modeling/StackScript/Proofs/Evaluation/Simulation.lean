import StackScript.Proofs.Evaluation.Follows
import StackScript.Proofs.Layout.Locality
import StackScript.Proofs.Layout.Placement

/-!
# Expressions follow their evaluation

The frame of a function holds the variables of its activation, each in its slot (`Represents`). As
long as it does, the code of an expression follows the evaluation of the expression: it pushes the
value and leaves the rest of the stack, the frame and the callers alone. What calls do is taken as
given here (`CallsFollow`); that they follow their evaluation too is proved for whole programs, by
induction on the bound of the evaluation.
-/

namespace StackScript

variable {x : Bytes} {a k : Nat}

/-! ## Frames and variables -/

/-- A frame holds the variables of an activation: each one that has a plain name in its slot. -/
structure Represents (vars : List Bytes) (fr : Array Cell) (env : Bytes → Cell) : Prop where
  size : fr.size = vars.length
  slot : ∀ x k, isPlainName x = true → slotOf vars x = some k → fr[k]? = some (env x)

namespace Represents

variable {vars : List Bytes} {fr : Array Cell} {env : Bytes → Cell}

/-- A slot of a variable is in the frame. -/
theorem lt (h : Represents vars fr env) (hk : slotOf vars x = some k) : k < fr.size := by
  rw [h.size]
  exact slotOf_lt hk

/-- The slot of a variable holds its value. -/
theorem getD (h : Represents vars fr env) (hx : isPlainName x = true)
    (hk : slotOf vars x = some k) : fr.getD k none = env x := by
  rw [Array.getD_eq_getD_getElem?, h.slot x k hx hk]
  rfl

/-- Storing into the slot of a variable sets the variable. -/
theorem set (h : Represents vars fr env) (hk : slotOf vars x = some k) (v : Cell) :
    Represents vars (fr.setIfInBounds k v) fun y => if y = x then v else env y where
  size := by rw [Array.size_setIfInBounds, h.size]
  slot y j hy hj := by
    by_cases hxy : y = x
    · subst hxy
      rw [hk] at hj
      cases hj
      rw [if_pos rfl, Array.getElem?_setIfInBounds_self_of_lt (h.lt hk)]
    · have hne : k ≠ j := by
        rintro rfl
        have hname := (slotOf_eq_some hk).symm.trans (slotOf_eq_some hj)
        cases hname
        exact hxy rfl
      rw [if_neg hxy, Array.getElem?_setIfInBounds_ne hne, h.slot y j hy hj]

/-- Storing into a slot that no variable with a plain name has changes no variable. -/
theorem set_hidden (h : Represents vars fr env) (hk : vars[k]? = some x)
    (hx : isPlainName x = false) (v : Cell) : Represents vars (fr.setIfInBounds k v) env where
  size := by rw [Array.size_setIfInBounds, h.size]
  slot y j hy hj := by
    have hne : k ≠ j := by
      rintro rfl
      have hname := hk.symm.trans (slotOf_eq_some hj)
      cases hname
      rw [hx] at hy
      cases hy
    rw [Array.getElem?_setIfInBounds_ne hne, h.slot y j hy hj]

end Represents

/-! ## Expressions -/

/-- Calls follow an evaluation of calls that pass as many arguments as functions declare. -/
def CallsFollow (L : Layout) (hosts : Array HostFunction) (call : Calls) (n : Nat) : Prop :=
  ∀ ⦃name : Bytes⦄ ⦃a b : Nat⦄ (args : List Cell), L.CallAt name args.length a b →
    (functionNamed? L.functions name).all (fun d => d.params.length == args.length) = true →
    ∀ (st : List Cell) (fr : Array Cell) (cs : List Caller) (w : World),
      Follows L.program hosts id n ⟨a, args ++ st, fr, cs, w⟩
        (fun v w s => s = ⟨b, v :: st, fr, cs, w⟩) (call name args w)

/-- The value of an expression is pushed, and no variable changes. -/
def Valued (b : Nat) (st : List Cell) (fr : Array Cell) (cs : List Caller) (env : Bytes → Cell)
    (v : Cell) (act : Activation) (s : State) : Prop :=
  act.vars = env ∧ s = ⟨b, v :: st, fr, cs, act.world⟩

section Expressions

variable {L : Layout} {hosts : Array HostFunction} {call : Calls} {n : Nat} {vars : List Bytes}

/-- A call follows its evaluation in an activation. -/
theorem CallsFollow.invoke (hcalls : CallsFollow L hosts call n) {name : Bytes} {b : Nat}
    {args : List Cell} (h : L.CallAt name args.length a b)
    (harity : (functionNamed? L.functions name).all
      (fun d => d.params.length == args.length) = true) (st : List Cell) (fr : Array Cell)
    (cs : List Caller) (act : Activation) :
    Follows L.program hosts Activation.world n ⟨a, args ++ st, fr, cs, act.world⟩
      (Valued b st fr cs act.vars) (Eval.invoke (call name args) act) := by
  have hfollows := hcalls args h harity st fr cs act.world
  rw [Eval.invoke]
  match hcall : call name args act.world with
  | .ok v w =>
    rw [hcall] at hfollows
    obtain ⟨m, s, hs, rfl⟩ := hfollows
    exact ⟨m, _, hs, rfl, rfl⟩
  | .error (.failure f) w => rwa [hcall] at hfollows
  | .error .unfinished w => rwa [hcall] at hfollows
  | .error .malformed w => rwa [hcall] at hfollows

mutual

/-- The code of an expression follows its evaluation. -/
theorem Expr.At.follows (hcalls : CallsFollow L hosts call n) {e : Expr Cell} {a b : Nat}
    (h : e.At L vars a b) (hregular : e.regular L.functions = true) (st : List Cell)
    {fr : Array Cell} (cs : List Caller) {act : Activation}
    (hfr : Represents vars fr act.vars) :
    Follows L.program hosts Activation.world n ⟨a, st, fr, cs, act.world⟩
      (Valued b st fr cs act.vars) (e.eval L.program.constants.toList call act) := by
  match e with
  | .absent => exact h.elim
  | .literal _ v =>
    obtain ⟨hi, rfl⟩ := h
    exact .of_next (next_pushes hi) (.now ⟨rfl, rfl⟩)
  | .load _ x =>
    obtain ⟨k, hk, hi, rfl⟩ := h
    refine .of_next (next_load hi (hfr.lt hk)) ?_
    rw [hfr.getD hregular hk]
    exact ⟨0, _, rfl, rfl, rfl⟩
  | .element _ x row col =>
    obtain ⟨l, m, k, hr, hc, hk, hi, rfl⟩ := h
    simp only [Expr.regular, Bool.and_eq_true] at hregular
    obtain ⟨⟨hx, hrow⟩, hcol⟩ := hregular
    rw [Expr.eval]
    refine (Expr.At.follows hcalls hr hrow st cs hfr).bind ?_
    rintro r act₁ _ ⟨hvars₁, rfl⟩
    -- A call in an operand may change the world but no variable, so the frame still fits.
    rw [← hvars₁] at hfr ⊢
    refine (Expr.At.follows hcalls hc hcol _ cs hfr).bind ?_
    rintro c act₂ _ ⟨hvars₂, rfl⟩
    rw [← hvars₂] at hfr ⊢
    rw [Eval.getVar_bind, Eval.store_bind, ← hfr.getD hx hk]
    exact .lift_end (does_readArray hi (hfr.lt hk)) rfl fun v _ => ⟨rfl, rfl⟩
  | .newArray _ rows cols fill =>
    obtain ⟨l, m, hr, hc, hp, hi, rfl⟩ := h
    simp only [Expr.regular, Bool.and_eq_true] at hregular
    rw [Expr.eval]
    refine (Expr.At.follows hcalls hr hregular.1 st cs hfr).bind ?_
    rintro r act₁ _ ⟨hvars₁, rfl⟩
    rw [← hvars₁] at hfr ⊢
    refine (Expr.At.follows hcalls hc hregular.2 _ cs hfr).bind ?_
    rintro c act₂ _ ⟨hvars₂, rfl⟩
    rw [← hvars₂] at hfr ⊢
    refine .of_next (next_pushes hp) (.lift (does_makeArray hi) rfl fun g _ => ?_)
    exact ⟨0, _, rfl, rfl, rfl⟩
  | .call _ name args =>
    obtain ⟨m, ha, hcall⟩ := h
    simp only [Expr.regular, Bool.and_eq_true] at hregular
    rw [Expr.eval]
    refine (Expr.ArgumentsAt.follows hcalls ha hregular.2 st cs hfr).bind ?_
    rintro vs act₁ _ ⟨hvars₁, hlength, rfl⟩
    -- As many values were pushed as there are arguments, which is what the call site passes.
    rw [← hlength] at hcall hregular
    rw [← hvars₁]
    exact hcalls.invoke hcall hregular.1 st fr cs act₁
  | .binary _ op left right =>
    obtain ⟨l, m, o, ho, hl, hr, hi, rfl⟩ := h
    simp only [Expr.regular, Bool.and_eq_true] at hregular
    rw [Expr.eval]
    refine (Expr.At.follows hcalls hl hregular.1 st cs hfr).bind ?_
    rintro x act₁ _ ⟨hvars₁, rfl⟩
    rw [← hvars₁] at hfr ⊢
    refine (Expr.At.follows hcalls hr hregular.2 _ cs hfr).bind ?_
    rintro y act₂ _ ⟨hvars₂, rfl⟩
    rw [Eval.store_bind, ← hvars₂]
    exact .lift_end (does_operator op ho hi) rfl fun v _ => ⟨rfl, rfl⟩
  | .negation _ operand =>
    obtain ⟨m, ho, hi, rfl⟩ := h
    rw [Expr.eval]
    refine (Expr.At.follows hcalls ho hregular st cs hfr).bind ?_
    rintro v act₁ _ ⟨hvars₁, rfl⟩
    rw [← hvars₁]
    exact .lift_end (does_not hi) rfl fun v _ => ⟨rfl, rfl⟩

/-- The code of arguments follows their evaluation. -/
theorem Expr.ArgumentsAt.follows (hcalls : CallsFollow L hosts call n) {es : List (Expr Cell)}
    {a b : Nat} (h : Expr.ArgumentsAt L vars es a b)
    (hregular : Expr.allRegular L.functions es = true) (st : List Cell) {fr : Array Cell}
    (cs : List Caller) {act : Activation} (hfr : Represents vars fr act.vars) :
    Follows L.program hosts Activation.world n ⟨a, st, fr, cs, act.world⟩
      (fun vs act' s => act'.vars = act.vars ∧ vs.length = es.length ∧
        s = ⟨b, vs ++ st, fr, cs, act'.world⟩)
      (Expr.evalArguments L.program.constants.toList call es act) := by
  match es with
  | [] =>
    obtain rfl := h
    exact .now ⟨rfl, rfl, rfl⟩
  | e :: es =>
    obtain ⟨m, hes, he⟩ := h
    simp only [Expr.allRegular, Bool.and_eq_true] at hregular
    rw [Expr.evalArguments]
    -- The last argument is evaluated first, so that the first one ends on top.
    refine (Expr.ArgumentsAt.follows hcalls hes hregular.2 st cs hfr).bind ?_
    rintro vs act₁ _ ⟨hvars₁, hlength, rfl⟩
    rw [← hvars₁] at hfr ⊢
    refine (Expr.At.follows hcalls he hregular.1 _ cs hfr).bind ?_
    rintro v act₂ _ ⟨hvars₂, rfl⟩
    exact .now ⟨hvars₂, congrArg Nat.succ hlength, rfl⟩

end

/-- A condition and the jump behind it follow the test of the condition. -/
theorem Expr.At.follows_test (hcalls : CallsFollow L hosts call n) {e : Expr Cell} {m no : Nat}
    (h : e.At L vars a m) (hregular : e.regular L.functions = true) (hj : L.Has m .jumpUnless no)
    (hno : no < L.program.code.size) (st : List Cell) {fr : Array Cell} (cs : List Caller)
    {act : Activation} (hfr : Represents vars fr act.vars) :
    Follows L.program hosts Activation.world n ⟨a, st, fr, cs, act.world⟩
      (fun x act' s => act'.vars = act.vars ∧
        s = ⟨if x then m + 1 else no, st, fr, cs, act'.world⟩)
      (e.test L.program.constants.toList call act) := by
  rw [Expr.test]
  refine (h.follows hcalls hregular st cs hfr).bind ?_
  rintro v act₁ _ ⟨hvars₁, rfl⟩
  exact .lift (does_jumpUnless hj hno) rfl fun x _ => .now ⟨hvars₁, rfl⟩

end Expressions

end StackScript
