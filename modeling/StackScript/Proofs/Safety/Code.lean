import StackScript.Proofs.Layout.Locality
import StackScript.Proofs.Safety.Leads

/-!
# Expressions and statements lead to their ends

The code of an expression leads to its end with one more cell on the stack. The code of a statement
need not lead to its end, since it may return from its function, leave a loop or go on forever, so
the argument runs backwards: if execution can go on behind a statement, and where a `leave` goes, it
can go on at its beginning. `Resumable` says that it can go on at a place, which means that the
function that is being executed returns. Nothing here depends on what the values are, and only
under `strict` on where frames end, so that the same lemmas serve trees in which a function leaves
a loop of another one.
-/

namespace StackScript

variable {fr : Array Cell} {index : Bytes} {hidden : List Nat} {i k : Nat} {body : Stmt Cell}

/-- The stack has one more cell at a place. -/
def Pushed (b : Nat) (st : List Cell) (fr : Array Cell) (cs : List Caller) (s : State) : Prop :=
  ∃ v w, s = ⟨b, v :: st, fr, cs, w⟩

/-- The activation with `depth` callers is from `a` to before `b`, or something that it has called
is under way. -/
abbrev Running (depth a b : Nat) : State → Prop := State.Within depth fun x => a ≤ x ∧ x < b

/-- An activation that is in a part of some code is in that code. -/
theorem Leads.widen {p : Program} {hosts : Array HostFunction} {strict : Prop}
    {depth a a' b b' n : Nat} {s : State} {post : State → Prop}
    (h : Leads p hosts strict (Running depth a' b') n s post) (ha : a ≤ a') (hb : b' ≤ b) :
    Leads p hosts strict (Running depth a b) n s post :=
  h.weaken fun _ hq => hq.imp_right fun hq =>
    ⟨hq.1, Nat.le_trans ha hq.2.1, Nat.lt_of_lt_of_le hq.2.2 hb⟩

/-- Calls lead to their ends with the arguments replaced by the result. -/
def CallsLead (L : Layout) (hosts : Array HostFunction) (strict : Prop) (n : Nat) : Prop :=
  ∀ ⦃name : Bytes⦄ ⦃k a b : Nat⦄, L.CallAt name k a b →
    ∀ (args st : List Cell) (fr : Array Cell) (cs : List Caller) (w : World), args.length = k →
      Leads L.program hosts strict (Running cs.length a b) n ⟨a, args ++ st, fr, cs, w⟩
        (Pushed b st fr cs)

/-- Fewer steps may be asked for. -/
theorem CallsLead.mono {L : Layout} {hosts : Array HostFunction} {strict : Prop} {m n : Nat}
    (h : CallsLead L hosts strict n) (hm : m ≤ n) : CallsLead L hosts strict m :=
  fun _ _ _ _ hcall args st fr cs w hargs => (h hcall args st fr cs w hargs).mono hm

section Expressions

variable {L : Layout} {hosts : Array HostFunction} {strict : Prop} {n : Nat} {vars : List Bytes}

/-- A variable has a slot in a frame of strict code. -/
theorem slot_lt {x : Bytes} (hk : slotOf vars x = some k) (hfr : strict → fr.size = vars.length)
    (hs : strict) : k < fr.size := by
  rw [hfr hs]
  exact slotOf_lt hk

mutual

/-- The code of an expression leads to its end with its value on the stack. -/
theorem Expr.At.leads (hcalls : CallsLead L hosts strict n) {e : Expr Cell} {a b : Nat}
    (h : e.At L vars a b) (st : List Cell) {fr : Array Cell} (cs : List Caller) (w : World)
    (hfr : strict → fr.size = vars.length) :
    Leads L.program hosts strict (Running cs.length a b) n ⟨a, st, fr, cs, w⟩
      (Pushed b st fr cs) := by
  -- The last instruction of the code is behind the code of the operands, in the same activation.
  have hlast : ∀ {i}, a ≤ i → i < b → ∀ st w, Running cs.length a b ⟨i, st, fr, cs, w⟩ :=
    fun ha hb _ _ => .inr ⟨rfl, ha, hb⟩
  match e with
  | .absent => exact h.elim
  | .literal _ v =>
    obtain ⟨hi, rfl⟩ := h
    have hgood := hlast (Nat.le_refl a) (Nat.lt_succ_self a) st w
    exact .of_next hgood (next_pushes hi) (.now ⟨_, _, rfl⟩)
  | .load _ x =>
    obtain ⟨k, hk, hi, rfl⟩ := h
    have hgood := hlast (Nat.le_refl a) (Nat.lt_succ_self a) st w
    exact leads_slot hgood hi (by simp) (slot_lt hk hfr) fun hlt =>
      .of_next hgood (next_load hi hlt) (.now ⟨_, _, rfl⟩)
  | .element _ x row col =>
    obtain ⟨l, m, k, hr, hc, hk, hi, rfl⟩ := h
    have hal := hr.le
    have hlm := hc.le
    -- An operand leaves the frame as it is, so what is known of its size holds behind it.
    refine ((Expr.At.leads hcalls hr st cs w hfr).widen (Nat.le_refl a) (by omega)).trans ?_
    rintro _ ⟨r, w, rfl⟩
    refine ((Expr.At.leads hcalls hc _ cs w hfr).widen hal (Nat.le_succ m)).trans ?_
    rintro _ ⟨c, w, rfl⟩
    have hgood := hlast (Nat.le_trans hal hlm) (Nat.lt_succ_self m) (c :: r :: st) w
    exact leads_slot hgood hi (by simp) (slot_lt hk hfr) fun hlt =>
      .of_does hgood (does_readArray hi hlt) fun v _ => .now ⟨_, _, rfl⟩
  | .newArray _ rows cols fill =>
    obtain ⟨l, m, hr, hc, hp, hi, rfl⟩ := h
    have hal := hr.le
    have hlm := hc.le
    refine ((Expr.At.leads hcalls hr st cs w hfr).widen (Nat.le_refl a) (by omega)).trans ?_
    rintro _ ⟨r, w, rfl⟩
    refine ((Expr.At.leads hcalls hc _ cs w hfr).widen hal (by omega)).trans ?_
    rintro _ ⟨c, w, rfl⟩
    exact .of_next (hlast (by omega) (by omega) _ w) (next_pushes hp)
      (.of_does (hlast (by omega) (by omega) _ w) (does_makeArray hi) fun g _ =>
        .now ⟨_, _, rfl⟩)
  | .call _ name args =>
    obtain ⟨m, ha, hcall⟩ := h
    refine ((Expr.ArgumentsAt.leads hcalls ha st cs w hfr).widen (Nat.le_refl a)
      hcall.plain.le).trans ?_
    rintro _ ⟨vs, w, hlength, rfl⟩
    exact (hcalls hcall vs st fr cs w hlength).widen (Expr.ArgumentsAt.le ha) (Nat.le_refl b)
  | .binary _ op left right =>
    obtain ⟨l, m, o, ho, hl, hr, hi, rfl⟩ := h
    have hal := hl.le
    have hlm := hr.le
    refine ((Expr.At.leads hcalls hl st cs w hfr).widen (Nat.le_refl a) (by omega)).trans ?_
    rintro _ ⟨x, w, rfl⟩
    refine ((Expr.At.leads hcalls hr _ cs w hfr).widen hal (Nat.le_succ m)).trans ?_
    rintro _ ⟨y, w, rfl⟩
    exact .of_does (hlast (Nat.le_trans hal hlm) (Nat.lt_succ_self m) _ w)
      (does_operator op ho hi) fun v _ => .now ⟨_, _, rfl⟩
  | .negation _ operand =>
    obtain ⟨m, ho, hi, rfl⟩ := h
    refine ((Expr.At.leads hcalls ho st cs w hfr).widen (Nat.le_refl a) (Nat.le_succ m)).trans ?_
    rintro _ ⟨v, w, rfl⟩
    exact .of_does (hlast ho.le (Nat.lt_succ_self m) _ w) (does_not hi) fun v _ =>
      .now ⟨_, _, rfl⟩

/-- The code of arguments leads to its end with their values on the stack, the first on top. -/
theorem Expr.ArgumentsAt.leads (hcalls : CallsLead L hosts strict n) {es : List (Expr Cell)}
    {a b : Nat} (h : Expr.ArgumentsAt L vars es a b) (st : List Cell) {fr : Array Cell}
    (cs : List Caller) (w : World) (hfr : strict → fr.size = vars.length) :
    Leads L.program hosts strict (Running cs.length a b) n ⟨a, st, fr, cs, w⟩
      (fun s => ∃ vs w, vs.length = es.length ∧ s = ⟨b, vs ++ st, fr, cs, w⟩) := by
  match es with
  | [] =>
    obtain rfl := h
    exact .now ⟨[], w, rfl, rfl⟩
  | e :: es =>
    obtain ⟨m, hes, he⟩ := h
    refine ((Expr.ArgumentsAt.leads hcalls hes st cs w hfr).widen (Nat.le_refl a) he.le).trans ?_
    rintro _ ⟨vs, w, hlength, rfl⟩
    refine ((Expr.At.leads hcalls he _ cs w hfr).widen (Expr.ArgumentsAt.le hes)
      (Nat.le_refl b)).imp ?_
    rintro _ ⟨v, w, rfl⟩
    exact ⟨v :: vs, w, congrArg Nat.succ hlength, rfl⟩

end

end Expressions

/-- An activation with `depth` callers, or something that it has called, is under way. -/
abbrev Active (depth : Nat) : State → Prop := State.Within depth fun _ => True

/-- An activation is active wherever it is. -/
theorem Leads.anywhere {p : Program} {hosts : Array HostFunction} {strict : Prop} {a b i n : Nat}
    {st : List Cell} {fr : Array Cell} {caller : Caller} {cs : List Caller} {w : World}
    {post : State → Prop}
    (h : Leads p hosts strict (Running (caller :: cs).length a b) n ⟨i, st, fr, caller :: cs, w⟩
      post) :
    Leads p hosts strict (Active (cs.length + 1)) n ⟨i, st, fr, caller :: cs, w⟩ post :=
  h.weaken fun _ hq => hq.imp_right fun hq => ⟨hq.1, trivial⟩

/-- Execution can go on at a place of a function with the given variables: whatever the function was
called from, it returns there with one value. -/
structure Resumable (L : Layout) (hosts : Array HostFunction) (strict : Prop) (n : Nat)
    (vars : List Bytes) (i : Nat) : Prop where
  /-- The place is in the program. -/
  lt : i < L.program.code.size
  /-- The function returns. -/
  leads : ∀ (st : List Cell) {fr : Array Cell} (r : Nat) (saved : Array Cell) (cs : List Caller)
    (w : World), (strict → fr.size = vars.length) →
    Leads L.program hosts strict (Active (cs.length + 1)) n ⟨i, st, fr, ⟨r, some saved⟩ :: cs, w⟩
      (Pushed r st saved cs)

/-- The activation of a state is active. -/
theorem active_self {i : Nat} {st : List Cell} {fr : Array Cell} {caller : Caller}
    {cs : List Caller} {w : World} : Active (cs.length + 1) ⟨i, st, fr, caller :: cs, w⟩ :=
  .inr ⟨rfl, trivial⟩

/-- What is known around a statement: calls lead to their ends, and execution can go on behind it
and, if it is `inLoop`, where a `leave` goes. -/
structure Around (L : Layout) (hosts : Array HostFunction) (strict : Prop) (n : Nat)
    (vars : List Bytes) (stop : Option Nat) (inLoop : Bool) (b : Nat) : Prop where
  calls : CallsLead L hosts strict n
  next : Resumable L hosts strict n vars b
  stop : ∀ q, stop = some q → (strict → inLoop = true) → Resumable L hosts strict n vars q

section Statements

variable {L : Layout} {hosts : Array HostFunction} {strict : Prop} {m n : Nat} {vars : List Bytes}
  {stop : Option Nat} {inLoop : Bool} {a b : Nat}

/-- Fewer steps may be asked for. -/
theorem Resumable.mono (h : Resumable L hosts strict n vars a) (hm : m ≤ n) :
    Resumable L hosts strict m vars a :=
  ⟨h.lt, fun st _ r saved cs w hfr => (h.leads st r saved cs w hfr).mono hm⟩

/-- Fewer steps may be asked for. -/
theorem Around.mono (h : Around L hosts strict n vars stop inLoop b) (hm : m ≤ n) :
    Around L hosts strict m vars stop inLoop b :=
  ⟨h.calls.mono hm, h.next.mono hm, fun q hq hin => (h.stop q hq hin).mono hm⟩

/-- Code may end at another place to resume. -/
theorem Around.at (h : Around L hosts strict n vars stop inLoop b)
    (hi : Resumable L hosts strict n vars i) : Around L hosts strict n vars stop inLoop i :=
  { h with next := hi }

/-- A jump to a place where execution can go on. -/
theorem Resumable.of_jump (h : Resumable L hosts strict n vars i) (hi : L.Has a .jump i) :
    Resumable L hosts strict (n + 1) vars a :=
  ⟨hi.lt, fun st _ r saved cs w hfr =>
    .of_next_succ active_self (next_jump hi h.lt) (h.leads st r saved cs w hfr)⟩

/-- Execution can go on at a place that it comes back to, if it takes a step each time. -/
theorem Resumable.of_repeat (hlt : i < L.program.code.size)
    (hstep : ∀ m < n, Resumable L hosts strict m vars i → Resumable L hosts strict (m + 1) vars i) :
    Resumable L hosts strict n vars i := by
  -- The induction is on the number of steps that are asked for; none are asked for at first.
  induction n with
  | zero => exact ⟨hlt, fun _ _ _ _ _ _ _ => .zero⟩
  | succ n ih =>
    have hbefore := ih fun m hm => hstep m (Nat.lt_succ_of_lt hm)
    exact hstep n (Nat.lt_succ_self n) hbefore

/-- Code that leaves the function with the value false. -/
theorem Layout.FalseAt.resumable (h : L.FalseAt a b) : Resumable L hosts strict n vars a := by
  obtain ⟨hpush, hret, -⟩ := h
  obtain ⟨k, -, hi⟩ := id hpush
  exact ⟨hi.lt, fun st _ r saved cs w hfr =>
    .of_next active_self (next_pushes hpush)
      (.of_next active_self (next_ret hret) (.now ⟨_, _, rfl⟩))⟩

/-- Execution can go on at the beginning of the statement if it can behind it. -/
def Stmt.Resumes (L : Layout) (hosts : Array HostFunction) (strict : Prop) (s : Stmt Cell) : Prop :=
  ∀ ⦃n : Nat⦄ ⦃vars : List Bytes⦄ ⦃stop : Option Nat⦄ ⦃hidden : List Nat⦄ ⦃inLoop : Bool⦄
    ⦃a b : Nat⦄, s.At L vars stop hidden a b → (strict → s.leavesLoops inLoop = true) →
    Around L hosts strict n vars stop inLoop b → Resumable L hosts strict n vars a

/-- A condition that is evaluated before a jump. -/
theorem leads_test {cond : Expr Cell} {yes no : Nat} (hcalls : CallsLead L hosts strict n)
    (hc : cond.At L vars a m) (hj : L.Has m .jumpUnless no) (hm : yes = m + 1)
    (hyes : Resumable L hosts strict n vars yes) (hno : Resumable L hosts strict n vars no) :
    Resumable L hosts strict n vars a := by
  refine ⟨Nat.lt_of_le_of_lt hc.le hj.lt, fun st fr r saved cs w hfr => ?_⟩
  refine (hc.leads hcalls st _ w hfr).anywhere.trans ?_
  rintro _ ⟨v, w, rfl⟩
  refine .of_does active_self (does_jumpUnless hj hno.lt) fun x _ => ?_
  cases x.truth with
  | true =>
    subst hm
    exact hyes.leads st r saved cs w hfr
  | false => exact hno.leads st r saved cs w hfr

/-- A loop that is repeated while a condition holds. -/
theorem whileLoop_resumes (pos : Position) (cond : Expr Cell)
    (hbody : body.Resumes L hosts strict) :
    (Stmt.whileLoop pos cond body).Resumes L hosts strict := by
  intro n vars stop hidden inLoop a b h hleaves haround
  obtain ⟨m, e, hc, hj, hb, hback, rfl⟩ := h
  have hlt : a < L.program.code.size := Nat.lt_of_le_of_lt hc.le hj.lt
  refine .of_repeat hlt fun m hm hstart => ?_
  have hin := haround.mono hm
  -- The step that a repetition takes is the jump back.
  have hend := hstart.of_jump hback
  refine leads_test hin.calls hc hj rfl (hbody hb hleaves ⟨hin.calls, hend, ?_⟩) hin.next
  rintro q ⟨⟩ -
  exact hin.next

/-- The index of a counting loop is a variable. -/
theorem IndexAt.lt (h : IndexAt vars hidden index k) : k < vars.length := by
  unfold IndexAt at h
  split at h
  · obtain ⟨⟨n, hk⟩, -⟩ := h
    exact slotOf_lt hk
  · exact slotOf_lt h

/-- Storing the top of the stack into a slot before a place where execution can go on. -/
theorem Resumable.leads_store {st : List Cell} {r : Nat} {saved : Array Cell} {cs : List Caller}
    {w : World} {v : Cell} (h : Resumable L hosts strict n vars (a + 1)) (hi : L.Has a .store k)
    (hk : k < vars.length) (hfr : strict → fr.size = vars.length) :
    Leads L.program hosts strict (Active (cs.length + 1)) n
      ⟨a, v :: st, fr, ⟨r, some saved⟩ :: cs, w⟩ (Pushed r st saved cs) := by
  refine StackScript.leads_store active_self hi (fun hs => hfr hs ▸ hk)
    (h.leads st r saved cs w fun hs => ?_)
  rw [Array.size_setIfInBounds]
  exact hfr hs

/-- Counting an index on before a jump to a place where execution can go on. -/
theorem Resumable.of_increment (h : Resumable L hosts strict n vars i) (hk : k < vars.length)
    (hload : L.Has a .load k) (hone : L.Pushes (a + 1) (some (.integer 1)))
    (hadd : L.Has (a + 2) .add 0) (hstore : L.Has (a + 3) .store k)
    (hback : L.Has (a + 4) .jump i) : Resumable L hosts strict (n + 1) vars a := by
  refine ⟨hload.lt, fun st fr r saved cs w hfr => ?_⟩
  refine leads_slot active_self hload (by simp) (fun hs => hfr hs ▸ hk) fun hlt => ?_
  refine .of_next active_self (next_load hload hlt)
    (.of_next active_self (next_pushes hone) ?_)
  refine .of_does active_self (does_operator .add rfl hadd) fun v _ => ?_
  exact (h.of_jump hback).leads_store hstore hk hfr

/-- Execution can go on where a counting loop tests its index. -/
theorem countLoop_test {pos : Position} {count : Expr Cell} (hbody : body.Resumes L hosts strict)
    (h : (Stmt.countLoop pos index count body).At L vars stop hidden a b)
    (hleaves : strict → body.leavesLoops true = true)
    (haround : Around L hosts strict n vars stop inLoop b) :
    Resumable L hosts strict n vars (a + 2) := by
  obtain ⟨k, m, e, hk, -, -, hload, hc, hless, hj, hb, hload', hone, hadd, hstore, hback, rfl⟩ := h
  refine .of_repeat hload.lt fun j hj' hstart => ?_
  have hin := haround.mono hj'
  have hend := hstart.of_increment hk.lt hload' hone hadd hstore hback
  have hyes : Resumable L hosts strict (j + 1) vars (m + 2) :=
    hbody hb hleaves ⟨hin.calls, hend, by rintro q ⟨⟩ -; exact hin.next⟩
  -- The index is on the stack while the count is evaluated, so `leads_test` does not apply.
  refine ⟨hload.lt, fun st fr r saved cs w hfr => ?_⟩
  refine leads_slot active_self hload (by simp) (fun hs => hfr hs ▸ hk.lt) fun hlt => ?_
  refine .of_next active_self (next_load hload hlt)
    ((hc.leads hin.calls _ _ w hfr).anywhere.trans ?_)
  rintro _ ⟨v, w, rfl⟩
  refine .of_does active_self (does_operator .lt rfl hless) fun v _ => ?_
  refine .of_does active_self (does_jumpUnless hj hin.next.lt) fun x _ => ?_
  cases x.truth with
  | true => exact hyes.leads st r saved cs w hfr
  | false => exact hin.next.leads st r saved cs w hfr

/-- A loop that is repeated while its index is less than a count. -/
theorem countLoop_resumes (pos : Position) (index : Bytes) (count : Expr Cell)
    (hbody : body.Resumes L hosts strict) :
    (Stmt.countLoop pos index count body).Resumes L hosts strict := by
  intro n vars stop hidden inLoop a b h hleaves haround
  have htest := countLoop_test hbody h hleaves haround
  obtain ⟨k, m, e, hk, hzero, hstore, -⟩ := h
  obtain ⟨j, -, hi⟩ := id hzero
  exact ⟨hi.lt, fun st fr r saved cs w hfr =>
    .of_next active_self (next_pushes hzero) (htest.leads_store hstore hk.lt hfr)⟩

mutual

/-- Execution can go on at the beginning of every statement if it can behind it. -/
theorem Stmt.resumes (s : Stmt Cell) : s.Resumes L hosts strict := by
  match s with
  | .absent =>
    intro n vars stop hidden inLoop a b h hleaves haround
    obtain rfl := h
    exact haround.next
  | .block pos body => exact Stmt.block_resumes pos body
  | .declare _ x value =>
    intro n vars stop hidden inLoop a b h hleaves haround
    obtain ⟨m, k, hv, hk, -, hi, rfl⟩ := h
    refine ⟨Nat.lt_of_le_of_lt hv.le hi.lt, fun st fr r saved cs w hfr => ?_⟩
    refine (hv.leads haround.calls st _ w hfr).anywhere.trans ?_
    rintro _ ⟨v, w, rfl⟩
    exact haround.next.leads_store hi (List.getElem?_eq_some_iff.mp hk).1 hfr
  | .assign _ x value =>
    intro n vars stop hidden inLoop a b h hleaves haround
    obtain ⟨m, k, hv, hk, hi, rfl⟩ := h
    refine ⟨Nat.lt_of_le_of_lt hv.le hi.lt, fun st fr r saved cs w hfr => ?_⟩
    refine (hv.leads haround.calls st _ w hfr).anywhere.trans ?_
    rintro _ ⟨v, w, rfl⟩
    exact haround.next.leads_store hi (slotOf_lt hk) hfr
  | .assignElement _ x row col value =>
    intro n vars stop hidden inLoop a b h hleaves haround
    obtain ⟨l, m, e, k, hr, hc, hv, hk, hi, rfl⟩ := h
    have hlt := Nat.lt_of_le_of_lt (Nat.le_trans hr.le (Nat.le_trans hc.le hv.le)) hi.lt
    refine ⟨hlt, fun st fr r saved cs w hfr => ?_⟩
    refine (hr.leads haround.calls st _ w hfr).anywhere.trans ?_
    rintro _ ⟨row, w, rfl⟩
    refine (hc.leads haround.calls _ _ w hfr).anywhere.trans ?_
    rintro _ ⟨col, w, rfl⟩
    refine (hv.leads haround.calls _ _ w hfr).anywhere.trans ?_
    rintro _ ⟨v, w, rfl⟩
    exact leads_slot active_self hi (by simp) (slot_lt hk hfr) fun hlt =>
      .of_does active_self (does_writeArray hi hlt) fun _ _ =>
        haround.next.leads st r saved cs _ hfr
  | .branch _ cond yes no =>
    intro n vars stop hidden inLoop a b h hleaves haround
    obtain ⟨m, e, hc, hj, hy, hjump, hn⟩ := h
    have hyes : strict → yes.leavesLoops inLoop = true := fun hs => by
      simpa using (Bool.and_eq_true_iff.mp (hleaves hs)).1
    have hno : strict → no.leavesLoops inLoop = true := fun hs => by
      simpa using (Bool.and_eq_true_iff.mp (hleaves hs)).2
    have hend := (haround.next.of_jump hjump).mono (Nat.le_succ n)
    exact leads_test haround.calls hc hj rfl (Stmt.resumes yes hy hyes (haround.at hend))
      (Stmt.resumes no hn hno haround)
  | .whileLoop pos cond body => exact whileLoop_resumes pos cond (Stmt.resumes body)
  | .countLoop pos index count body => exact countLoop_resumes pos index count (Stmt.resumes body)
  | .leave _ =>
    intro n vars stop hidden inLoop a b h hleaves haround
    obtain ⟨q, hq, hi, rfl⟩ := h
    exact ((haround.stop q hq hleaves).of_jump hi).mono (Nat.le_succ n)
  | .giveBack _ value =>
    intro n vars stop hidden inLoop a b h hleaves haround
    unfold Stmt.At at h
    split at h
    · exact h.resumable
    · obtain ⟨m, hv, hi, rfl⟩ := h
      refine ⟨Nat.lt_of_le_of_lt hv.le hi.lt, fun st fr r saved cs w hfr => ?_⟩
      refine (hv.leads haround.calls st _ w hfr).anywhere.trans ?_
      rintro _ ⟨v, w, rfl⟩
      exact .of_next active_self (next_ret hi) (.now ⟨_, _, rfl⟩)
  | .define _ name params body =>
    intro n vars stop hidden inLoop a b h hleaves haround
    -- A declaration is jumped over; its own code is entered by calls only.
    obtain ⟨vars', m, hi, -⟩ := h
    exact (haround.next.of_jump hi).mono (Nat.le_succ n)
  | .perform _ name args =>
    intro n vars stop hidden inLoop a b h hleaves haround
    obtain ⟨m, e, ha, hcall, hi, rfl⟩ := h
    have hlt := Nat.lt_of_le_of_lt (Nat.le_trans ha.le hcall.plain.le) hi.lt
    refine ⟨hlt, fun st fr r saved cs w hfr => ?_⟩
    refine (Expr.ArgumentsAt.leads haround.calls ha st _ w hfr).anywhere.trans ?_
    rintro _ ⟨vs, w, hlength, rfl⟩
    refine (haround.calls hcall vs st fr _ w hlength).anywhere.trans ?_
    rintro _ ⟨v, w, rfl⟩
    exact .of_next active_self (next_pop hi) (haround.next.leads st r saved cs w hfr)

/-- Execution can go on at the beginning of statements in sequence if it can behind them. -/
theorem Stmt.block_resumes (pos : Position) (ss : List (Stmt Cell)) :
    (Stmt.block pos ss).Resumes L hosts strict := by
  match ss with
  | [] =>
    intro n vars stop hidden inLoop a b h hleaves haround
    obtain rfl := h
    exact haround.next
  | s :: ss =>
    intro n vars stop hidden inLoop a b h hleaves haround
    obtain ⟨m, hs, hrest⟩ := h
    have hfirst : strict → s.leavesLoops inLoop = true := fun hs =>
      (Bool.and_eq_true_iff.mp (hleaves hs)).1
    have hlater : strict → (Stmt.block pos ss).leavesLoops inLoop = true := fun hs =>
      (Bool.and_eq_true_iff.mp (hleaves hs)).2
    exact Stmt.resumes s hs hfirst (haround.at (Stmt.block_resumes pos ss hrest hlater haround))

end

end Statements

end StackScript
