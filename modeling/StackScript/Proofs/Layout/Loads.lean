import StackScript.Proofs.Layout.Compiled
import StackScript.Proofs.Tree.Loads

/-!
# Where constants are loaded

The instructions of a compiled program that load constants are, in the order of the code, those for
the constants that its tree loads: one for each, and no others (`Compiled.loads`).
-/

namespace StackScript

variable {v : Cell} {a b n : Nat} {op : Opcode}

/-- The places from `a` to `b` at which a program loads a constant. -/
def Program.loadsBetween (p : Program) (a b : Nat) : List Nat :=
  (List.range' a (b - a)).filter fun q => p.code[q]?.any fun i => i.op == .constant

/-- The places at which a program loads a constant. -/
def Program.loadPlaces (p : Program) : List Nat := p.loadsBetween 0 p.code.size

/-- The code from `a` to `b` loads the given constants in order, and no others. -/
structure Layout.Loads (L : Layout) (vs : List Cell) (a b : Nat) : Prop where
  le : a ≤ b
  pushes : List.Forall₂ (fun v q => L.Pushes q v) vs (L.program.loadsBetween a b)

namespace Layout.Loads

variable {L : Layout} {vs ws : List Cell} {a m b : Nat}

/-- No code loads nothing. -/
theorem nil (a : Nat) : L.Loads [] a a := by
  refine ⟨Nat.le_refl a, ?_⟩
  unfold Program.loadsBetween
  rw [Nat.sub_self]
  exact .nil

/-- Code loads piece by piece. -/
theorem append (h : L.Loads vs a m) (h' : L.Loads ws m b) : L.Loads (vs ++ ws) a b := by
  have hle := h.le
  have hle' := h'.le
  refine ⟨Nat.le_trans hle hle', ?_⟩
  have hsplit : L.program.loadsBetween a b =
      L.program.loadsBetween a m ++ L.program.loadsBetween m b := by
    unfold Program.loadsBetween
    have hrange : List.range' a (m - a) ++ List.range' m (b - m) = List.range' a (b - a) := by
      have happend := @List.range'_append a (m - a) (b - m) 1
      rwa [Nat.one_mul, Nat.add_sub_cancel' hle, show m - a + (b - m) = b - a by omega] at happend
    rw [← List.filter_append, hrange]
  rw [hsplit]
  exact List.rel_append h.pushes h'.pushes

/-- An instruction is a load if it loads a constant. -/
theorem loadsBetween_single (h : L.Has a op n) :
    L.program.loadsBetween a (a + 1) = if op = .constant then [a] else [] := by
  obtain ⟨i, hi, rfl, -⟩ := h
  unfold Program.loadsBetween
  rw [Nat.add_sub_cancel_left, List.range'_one, List.filter_cons, hi]
  by_cases hop : i.op = .constant <;> simp [hop]

/-- Pushing a constant loads it. -/
theorem push (h : L.Pushes a v) : L.Loads [v] a (a + 1) := by
  refine ⟨Nat.le_succ a, ?_⟩
  have hpush := h
  obtain ⟨k, -, hhas⟩ := h
  rw [loadsBetween_single hhas, if_pos rfl]
  exact .cons hpush .nil

/-- An instruction that loads no constant. -/
theorem skip (h : L.Has a op n) (hop : op ≠ .constant) : L.Loads [] a (a + 1) := by
  refine ⟨Nat.le_succ a, ?_⟩
  rw [loadsBetween_single h, if_neg hop]
  exact .nil

/-- An instruction that loads no constant behind others. -/
theorem snoc (h : L.Loads vs a m) (hlast : L.Has m op n) (hop : op ≠ .constant) :
    L.Loads vs a (m + 1) := by
  have happend := h.append (skip hlast hop)
  rwa [List.append_nil] at happend

/-- The same constant several times. -/
theorem replicate (h : ∀ j < n, L.Pushes (a + j) v) : L.Loads (List.replicate n v) a (a + n) := by
  induction n with
  | zero => exact nil a
  | succ n ih =>
    rw [List.replicate_succ']
    exact (ih fun j hj => h j (Nat.lt_succ_of_lt hj)).append (push (h n (Nat.lt_succ_self n)))

/-- Several instructions that load no constants. -/
theorem skipAll (h : ∀ j < n, ∃ op k, L.Has (a + j) op k ∧ op ≠ .constant) :
    L.Loads [] a (a + n) := by
  induction n with
  | zero => exact nil a
  | succ n ih =>
    obtain ⟨op, k, hhas, hop⟩ := h n (Nat.lt_succ_self n)
    exact (ih fun j hj => h j (Nat.lt_succ_of_lt hj)).snoc hhas hop

end Layout.Loads

open Layout (Loads)

section

variable {L : Layout}

/-- The first constant is false. -/
def Layout.FalseFirst (L : Layout) : Prop :=
  L.program.constants[Pool.falseIndex]? = some (some (.boolean false))

/-- Giving back false loads false. -/
theorem Layout.FalseAt.loads (h : L.FalseAt a b) : L.Loads [some (.boolean false)] a b := by
  obtain ⟨hpush, hret, rfl⟩ := h
  exact (Loads.push hpush).snoc hret (by decide)

/-- A prologue loads nothing. -/
theorem Layout.PrologueAt.loads {params vars : List Bytes} {count : Nat}
    (h : L.PrologueAt params count vars a) : L.Loads [] a (a + 1 + params.length) := by
  obtain ⟨-, -, hframe, hstores⟩ := h
  refine (Loads.skip hframe (by decide)).append (Loads.skipAll fun j hj => ?_)
  obtain ⟨k, -, hstore⟩ := hstores j params[j] (List.getElem?_eq_getElem hj)
  exact ⟨.store, k, hstore, (by decide)⟩

/-- A call loads false for the arguments that it leaves out. -/
theorem Layout.CallAt.loads {name : Bytes} {k : Nat} (h : L.CallAt name k a b)
    (hfalse : L.FalseFirst) : L.Loads (missingArguments L.functions name k) a b := by
  have hstands : StandsFor L.program.constants.toList Pool.falseIndex (some (.boolean false)) := by
    unfold StandsFor
    rw [entryOf_boolean, Array.getElem?_toList]
    exact hfalse
  unfold Layout.CallAt at h
  unfold missingArguments
  cases hd : functionNamed? L.functions name with
  | some d =>
    rw [hd] at h
    obtain ⟨-, hmissing, hcall, rfl⟩ := h
    exact (Loads.replicate fun j hj => ⟨_, hstands, hmissing j hj⟩).snoc hcall (by decide)
  | none =>
    rw [hd] at h
    obtain ⟨i, o, -, ho, hop, -, rfl⟩ := h
    have hhas : L.Has a .callHost o.operand.toNat := ⟨o, ho, hop, rfl⟩
    exact Loads.skip hhas (by decide)

mutual

/-- The code of an expression loads its constants. -/
theorem Expr.At.loads {vars : List Bytes} {e : Expr Cell} {a b : Nat} (h : e.At L vars a b)
    (hfalse : L.FalseFirst) : L.Loads (e.loads L.functions) a b := by
  match e with
  | .absent => exact h.elim
  | .literal _ v =>
    obtain ⟨hpush, rfl⟩ := h
    exact .push hpush
  | .load _ x =>
    obtain ⟨k, -, hload, rfl⟩ := h
    exact .skip hload (by decide)
  | .element _ x row col =>
    obtain ⟨m, n, k, hr, hc, -, hread, rfl⟩ := h
    exact (hr.loads hfalse).append ((hc.loads hfalse).snoc hread (by decide))
  | .newArray _ rows cols fill =>
    obtain ⟨m, n, hr, hc, hpush, hmake, rfl⟩ := h
    have hfill := (Loads.push hpush).snoc hmake (by decide)
    exact (hr.loads hfalse).append ((hc.loads hfalse).append hfill)
  | .call _ name args =>
    obtain ⟨m, ha, hc⟩ := h
    exact (Expr.ArgumentsAt.loads ha hfalse).append (hc.loads hfalse)
  | .binary _ op left right =>
    obtain ⟨m, n, o, ho, hl, hr, hop, rfl⟩ := h
    have hne : o ≠ .constant := by
      rintro rfl
      cases op <;> cases ho
    exact (hl.loads hfalse).append ((hr.loads hfalse).snoc hop hne)
  | .negation _ operand =>
    obtain ⟨m, ho, hnot, rfl⟩ := h
    exact (ho.loads hfalse).snoc hnot (by decide)

/-- The code of arguments loads their constants. -/
theorem Expr.ArgumentsAt.loads {vars : List Bytes} {es : List (Expr Cell)} {a b : Nat}
    (h : Expr.ArgumentsAt L vars es a b) (hfalse : L.FalseFirst) :
    L.Loads (Expr.argumentLoads L.functions es) a b := by
  match es with
  | [] =>
    obtain rfl := h
    exact .nil b
  | e :: es =>
    obtain ⟨m, hes, he⟩ := h
    exact (Expr.ArgumentsAt.loads hes hfalse).append (he.loads hfalse)

end

mutual

/-- The code of a statement loads its constants. -/
theorem Stmt.At.loads {vars : List Bytes} {stop : Option Nat} {hidden : List Nat} {s : Stmt Cell}
    {a b : Nat} (h : s.At L vars stop hidden a b) (hfalse : L.FalseFirst) :
    L.Loads (s.loads L.functions) a b := by
  match s with
  | .absent =>
    obtain rfl := h
    exact .nil b
  | .block _ body => exact Stmt.AllAt.loads h hfalse
  | .declare _ x value =>
    obtain ⟨m, k, hv, -, -, hstore, rfl⟩ := h
    exact (hv.loads hfalse).snoc hstore (by decide)
  | .assign _ x value =>
    obtain ⟨m, k, hv, -, hstore, rfl⟩ := h
    exact (hv.loads hfalse).snoc hstore (by decide)
  | .assignElement _ x row col value =>
    obtain ⟨l, m, n, k, hr, hc, hv, -, hwrite, rfl⟩ := h
    exact (hr.loads hfalse).append
      ((hc.loads hfalse).append ((hv.loads hfalse).snoc hwrite (by decide)))
  | .branch _ cond yes no =>
    obtain ⟨m, n, hc, hunless, hy, hjump, hn⟩ := h
    exact ((hc.loads hfalse).snoc hunless (by decide)).append
      (((hy.loads hfalse).snoc hjump (by decide)).append (hn.loads hfalse))
  | .whileLoop _ cond body =>
    obtain ⟨m, n, hc, hunless, hb, hjump, rfl⟩ := h
    exact ((hc.loads hfalse).snoc hunless (by decide)).append
      ((hb.loads hfalse).snoc hjump (by decide))
  | .countLoop _ index count body =>
    obtain ⟨k, m, n, -, hzero, hstore, hload, hc, hlt, hunless, hb, hload', hone, hadd, hstore',
      hjump, rfl⟩ := h
    have hset := ((Loads.push hzero).snoc hstore (by decide)).snoc hload (by decide)
    have htest := ((hc.loads hfalse).snoc hlt (by decide)).snoc hunless (by decide)
    have hnext := ((Loads.push hone).snoc hadd (by decide)).snoc hstore' (by decide)
    have hnext := hnext.snoc hjump (by decide)
    exact hset.append (htest.append (((hb.loads hfalse).snoc hload' (by decide)).append hnext))
  | .leave _ =>
    obtain ⟨q, -, hjump, rfl⟩ := h
    exact .skip hjump (by decide)
  | .giveBack _ value =>
    unfold Stmt.At at h
    unfold Stmt.loads
    split at h
    · rename_i habsent
      rw [if_pos habsent]
      exact h.loads
    · rename_i hpresent
      obtain ⟨m, hv, hret, rfl⟩ := h
      rw [if_neg hpresent]
      exact (hv.loads hfalse).snoc hret (by decide)
  | .define _ name params body =>
    obtain ⟨vars', m, hjump, -, hprologue, hb, hend⟩ := h
    have hhead := (Loads.skip hjump (by decide)).append hprologue.loads
    rw [show a + 1 + 1 + params.length = a + 2 + params.length from rfl] at hhead
    exact (hhead.append (hb.loads hfalse)).append hend.loads
  | .perform _ name args =>
    obtain ⟨m, n, ha, hc, hpop, rfl⟩ := h
    exact (Expr.ArgumentsAt.loads ha hfalse).append ((hc.loads hfalse).snoc hpop (by decide))

/-- The code of statements loads their constants. -/
theorem Stmt.AllAt.loads {vars : List Bytes} {stop : Option Nat} {hidden : List Nat}
    {ss : List (Stmt Cell)} {a b : Nat} (h : Stmt.AllAt L ss vars stop hidden a b)
    (hfalse : L.FalseFirst) : L.Loads (Stmt.allLoads L.functions ss) a b := by
  match ss with
  | [] =>
    obtain rfl := h
    exact .nil b
  | s :: ss =>
    obtain ⟨m, hs, hrest⟩ := h
    exact (hs.loads hfalse).append (Stmt.AllAt.loads hrest hfalse)

end

end

/-- A compiled program loads the constants of its tree in order, and no others. -/
theorem Compiled.loads {t : Tree Cell} {imports : List Import} {L : Layout}
    (h : Compiled t imports L) :
    List.Forall₂ (fun v q => L.Pushes q v) t.loads L.program.loadPlaces := by
  obtain ⟨vars, m, hprologue, hbody, hend⟩ := h.program
  have hloads := (hprologue.loads.append (hbody.loads h.constant)).append hend.loads
  rw [h.functions] at hloads
  exact hloads.pushes

end StackScript
