import StackScript.Proofs.Layout.Compiled

/-!
# Call sites

Every call of a tree, wherever it stands in expressions, statements and functions, has code: that of
its arguments, and behind it that of the call.
-/

namespace StackScript

mutual

/-- The calls in an expression: the name of the function and the arguments of each. -/
def Expr.calls : Expr Cell → List (Bytes × List (Expr Cell))
  | .absent => []
  | .literal _ _ => []
  | .load _ _ => []
  | .element _ _ row col => row.calls ++ col.calls
  | .newArray _ rows cols _ => rows.calls ++ cols.calls
  | .call _ name args => (name, args) :: Expr.allCalls args
  | .binary _ _ left right => left.calls ++ right.calls
  | .negation _ operand => operand.calls

/-- The calls in the arguments of a call. -/
def Expr.allCalls : List (Expr Cell) → List (Bytes × List (Expr Cell))
  | [] => []
  | e :: es => e.calls ++ Expr.allCalls es

end

mutual

/-- The calls in a statement, those in functions that it declares included. -/
def Stmt.calls : Stmt Cell → List (Bytes × List (Expr Cell))
  | .absent => []
  | .block _ body => Stmt.allCalls body
  | .declare _ _ value => value.calls
  | .assign _ _ value => value.calls
  | .assignElement _ _ row col value => row.calls ++ col.calls ++ value.calls
  | .branch _ cond yes no => cond.calls ++ yes.calls ++ no.calls
  | .whileLoop _ cond body => cond.calls ++ body.calls
  | .countLoop _ _ count body => count.calls ++ body.calls
  | .leave _ => []
  | .giveBack _ value => value.calls
  | .define _ _ _ body => body.calls
  | .perform _ name args => (name, args) :: Expr.allCalls args

/-- The calls in statements in sequence. -/
def Stmt.allCalls : List (Stmt Cell) → List (Bytes × List (Expr Cell))
  | [] => []
  | s :: ss => s.calls ++ Stmt.allCalls ss

end

/-- The calls in a program. -/
def Tree.calls (t : Tree Cell) : List (Bytes × List (Expr Cell)) := Stmt.allCalls t.body

/-- A call in a function with the given variables stands from `a` to `b`; the code of its arguments
ends at `m`. -/
structure CallSite (L : Layout) (vars : List Bytes) (name : Bytes) (args : List (Expr Cell))
    (a m b : Nat) : Prop where
  arguments : Expr.ArgumentsAt L vars args a m
  call : L.CallAt name args.length m b

/-- A call has code. -/
def HasSite (L : Layout) (call : Bytes × List (Expr Cell)) : Prop :=
  ∃ vars a m b, CallSite L vars call.1 call.2 a m b

section

variable {L : Layout} {call : Bytes × List (Expr Cell)}

mutual

/-- A call in an expression has a site. -/
theorem Expr.At.hasSite {vars : List Bytes} {e : Expr Cell} {a b : Nat} (h : e.At L vars a b)
    (hcall : call ∈ e.calls) : HasSite L call := by
  match e with
  | .absent => exact h.elim
  | .literal _ v => cases hcall
  | .load _ x => cases hcall
  | .element _ x row col =>
    obtain ⟨m, n, k, hr, hc, -⟩ := h
    exact (List.mem_append.mp hcall).elim hr.hasSite hc.hasSite
  | .newArray _ rows cols fill =>
    obtain ⟨m, n, hr, hc, -⟩ := h
    exact (List.mem_append.mp hcall).elim hr.hasSite hc.hasSite
  | .call _ name args =>
    obtain ⟨m, ha, hc⟩ := h
    rcases List.mem_cons.mp hcall with rfl | hcall
    · exact ⟨vars, a, m, b, ha, hc⟩
    · exact Expr.ArgumentsAt.hasSite ha hcall
  | .binary _ op left right =>
    obtain ⟨m, n, o, -, hl, hr, -⟩ := h
    exact (List.mem_append.mp hcall).elim hl.hasSite hr.hasSite
  | .negation _ operand =>
    obtain ⟨m, ho, -⟩ := h
    exact ho.hasSite hcall

/-- A call in arguments has a site. -/
theorem Expr.ArgumentsAt.hasSite {vars : List Bytes} {es : List (Expr Cell)} {a b : Nat}
    (h : Expr.ArgumentsAt L vars es a b) (hcall : call ∈ Expr.allCalls es) : HasSite L call := by
  match es with
  | [] => cases hcall
  | e :: es =>
    obtain ⟨m, hes, he⟩ := h
    exact (List.mem_append.mp hcall).elim he.hasSite (Expr.ArgumentsAt.hasSite hes)

end

mutual

/-- A call in a statement has a site. -/
theorem Stmt.At.hasSite {vars : List Bytes} {stop : Option Nat} {hidden : List Nat} {s : Stmt Cell}
    {a b : Nat} (h : s.At L vars stop hidden a b) (hcall : call ∈ s.calls) : HasSite L call := by
  match s with
  | .absent => cases hcall
  | .block _ body =>
    have h : Stmt.AllAt L body vars stop hidden a b := h
    exact Stmt.AllAt.hasSite h hcall
  | .declare _ x value =>
    obtain ⟨m, k, hv, -⟩ := h
    exact hv.hasSite hcall
  | .assign _ x value =>
    obtain ⟨m, k, hv, -⟩ := h
    exact hv.hasSite hcall
  | .assignElement _ x row col value =>
    obtain ⟨l, m, n, k, hr, hc, hv, -⟩ := h
    exact (List.mem_append.mp hcall).elim
      (fun hcall => (List.mem_append.mp hcall).elim hr.hasSite hc.hasSite) hv.hasSite
  | .branch _ cond yes no =>
    obtain ⟨m, n, hc, -, hy, -, hn⟩ := h
    exact (List.mem_append.mp hcall).elim
      (fun hcall => (List.mem_append.mp hcall).elim hc.hasSite hy.hasSite) hn.hasSite
  | .whileLoop _ cond body =>
    obtain ⟨m, n, hc, -, hb, -⟩ := h
    exact (List.mem_append.mp hcall).elim hc.hasSite hb.hasSite
  | .countLoop _ index count body =>
    obtain ⟨k, m, n, -, -, -, -, hc, -, -, hb, -⟩ := h
    exact (List.mem_append.mp hcall).elim hc.hasSite hb.hasSite
  | .leave _ => cases hcall
  | .giveBack _ value =>
    unfold Stmt.At at h
    split at h
    · rename_i habsent
      obtain rfl := Expr.eq_absent habsent
      cases hcall
    · obtain ⟨m, hv, -⟩ := h
      exact hv.hasSite hcall
  | .define _ name params body =>
    obtain ⟨vars, m, -, -, -, hb, -⟩ := h
    exact hb.hasSite hcall
  | .perform _ name args =>
    obtain ⟨m, n, ha, hc, -⟩ := h
    rcases List.mem_cons.mp hcall with rfl | hcall
    · exact ⟨vars, a, m, n, ha, hc⟩
    · exact ha.hasSite hcall

/-- A call in statements has a site. -/
theorem Stmt.AllAt.hasSite {vars : List Bytes} {stop : Option Nat} {hidden : List Nat}
    {ss : List (Stmt Cell)} {a b : Nat} (h : Stmt.AllAt L ss vars stop hidden a b)
    (hcall : call ∈ Stmt.allCalls ss) : HasSite L call := by
  match ss with
  | [] => cases hcall
  | s :: ss =>
    obtain ⟨m, hs, hrest⟩ := h
    exact (List.mem_append.mp hcall).elim hs.hasSite (Stmt.AllAt.hasSite hrest)

end

/-- Every call of a program has code. -/
theorem Compiled.hasSite {t : Tree Cell} {imports : List Import} (h : Compiled t imports L)
    (hcall : call ∈ t.calls) : HasSite L call := by
  obtain ⟨vars, m, -, hbody, -⟩ := h.program
  exact Stmt.AllAt.hasSite hbody hcall

end

end StackScript
