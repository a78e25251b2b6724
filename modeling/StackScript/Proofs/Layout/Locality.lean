import StackScript.Proofs.Layout.Compiled

/-!
# Jumps inside functions

A function begins with the allocation of its frame and stands behind a jump around it, to the place
behind its last instruction; the statements outside all functions are the whole program. Functions
are nested, and a place is in the code of the innermost function around it. All jumps of a compiled
program stay in the code of their function exactly if every `leave` is inside a loop of its own
function. In a tree that is compiled this need not be so: a function that is declared inside a loop
of another one may leave that loop.
-/

namespace StackScript

variable {inLoop : Bool} {v : Cell} {L : Layout} {vars : List Bytes} {k n : Nat} {op : Opcode}
  {body : Stmt Cell}

namespace Program

/-- A function begins at a place. -/
def IsEntry (p : Program) (e : Nat) : Prop := ∃ i, p.code[e]? = some i ∧ i.op = .frame

/-- The place behind the code of the function that begins at a place. -/
def functionEnd (p : Program) (e : Nat) : Nat :=
  if e = 0 then p.code.size else p.code[e - 1]?.elim 0 fun i => i.operand.toNat

/-- A place is between the beginning and the end of the function that begins at `e`. -/
def Spans (p : Program) (e i : Nat) : Prop := p.IsEntry e ∧ e ≤ i ∧ i < p.functionEnd e

/-- A place is in the code of the function that begins at `e`, and not in that of a function
declared inside it. -/
def CodeOf (p : Program) (e i : Nat) : Prop := p.Spans e i ∧ ∀ e', p.Spans e' i → e' ≤ e

/-- A place is in the code of one function only. -/
theorem CodeOf.unique {p : Program} {e e' i : Nat} (h : p.CodeOf e i) (h' : p.CodeOf e' i) :
    e = e' :=
  Nat.le_antisymm (h'.2 e h.1) (h.2 e' h'.1)

end Program

/-- Whether an operation is a jump inside a function, not a call. -/
def Opcode.isBranch : Opcode → Bool
  | jump | jumpIf | jumpUnless => true
  | _ => false

namespace Program

/-- If the instruction at a place is a jump, it goes to the code of the function it is in. -/
def StaysAt (p : Program) (i : Nat) : Prop :=
  ∀ o, p.code[i]? = some o → o.op.isBranch = true →
    ∃ e, p.CodeOf e i ∧ p.CodeOf e o.operand.toNat

/-- All jumps go to the code of the function they are in. -/
def JumpsStay (p : Program) : Prop := ∀ i, p.StaysAt i

end Program

namespace Layout

variable {L : Layout} {a b m e i q : Nat}

/-! ## Straight code -/

/-- The instructions from one place up to another have a property. -/
structure Each (L : Layout) (P : Nat → Instruction → Prop) (a b : Nat) : Prop where
  le : a ≤ b
  all : ∀ i o, a ≤ i → i < b → L.program.code[i]? = some o → P i o

section Each

variable {P Q : Nat → Instruction → Prop}

/-- No instructions have any property. -/
theorem Each.empty : L.Each P a a :=
  ⟨Nat.le_refl a, fun _ _ h h' => absurd h (Nat.not_le.mpr h')⟩

/-- A property of two parts is one of the whole. -/
theorem Each.append (h : L.Each P a m) (h' : L.Each P m b) : L.Each P a b := by
  refine ⟨Nat.le_trans h.le h'.le, fun i o ha hb hi => ?_⟩
  rcases Nat.lt_or_ge i m with hm | hm
  · exact h.all i o ha hm hi
  · exact h'.all i o hm hb hi

/-- A property may be weakened. -/
theorem Each.imp (h : L.Each P a b) (hPQ : ∀ i o, P i o → Q i o) : L.Each Q a b :=
  ⟨h.le, fun i o ha hb hi => hPQ i o (h.all i o ha hb hi)⟩

/-- Instructions that each have a property. -/
theorem Each.of_single (hle : a ≤ b) (h : ∀ i, a ≤ i → i < b → L.Each P i (i + 1)) :
    L.Each P a b :=
  ⟨hle, fun i o ha hb hi => (h i ha hb).all i o (Nat.le_refl i) (Nat.lt_succ_self i) hi⟩

/-- A single instruction has the properties of its operation. -/
theorem Has.each (h : L.Has a op n) (hop : ∀ o, o.op = op → o.operand.toNat = n → P a o) :
    L.Each P a (a + 1) := by
  refine ⟨Nat.le_succ a, fun i o ha hb hi => ?_⟩
  obtain rfl : i = a := Nat.le_antisymm (Nat.le_of_lt_succ hb) ha
  obtain ⟨o', ho', hop', hn⟩ := h
  rw [ho'] at hi
  cases hi
  exact hop o hop' hn

end Each

/-- An instruction that neither begins a function nor jumps, but for a call, which goes to a
function. -/
structure Steady (L : Layout) (o : Instruction) : Prop where
  frame : o.op ≠ .frame
  branch : o.op.isBranch = false
  call : o.op = .call →
    ∃ name d, functionNamed? L.functions name = some d ∧ o.operand.toNat = L.entry name

/-- An instruction that computes neither stores into a slot nor returns. -/
structure Computes (L : Layout) (o : Instruction) : Prop extends L.Steady o where
  store : o.op ≠ .store
  ret : o.op ≠ .ret

/-- A single instruction computes. -/
theorem Has.computes (h : L.Has a op n) (hop : op ≠ .frame ∧ op.isBranch = false ∧ op ≠ .store ∧
    op ≠ .ret ∧ op ≠ .call) : L.Each (fun _ => L.Computes) a (a + 1) := by
  refine h.each ?_
  rintro o rfl -
  obtain ⟨hframe, hbranch, hstore, hret, hcall⟩ := hop
  exact ⟨⟨hframe, hbranch, fun h => absurd h hcall⟩, hstore, hret⟩

/-- Pushing a constant computes. -/
theorem Pushes.computes (h : L.Pushes a v) : L.Each (fun _ => L.Computes) a (a + 1) := by
  obtain ⟨k, -, hi⟩ := h
  exact hi.computes (by decide)

/-- The code of a call computes. -/
theorem CallAt.computes {name : Bytes} (h : L.CallAt name k a b) :
    L.Each (fun _ => L.Computes) a b := by
  unfold CallAt at h
  split at h
  · rename_i d hd
    obtain ⟨-, hpad, hcall, rfl⟩ := h
    refine .append (.of_single (Nat.le_add_right ..) fun i ha hb => ?_) (hcall.each ?_)
    · have hj := hpad (i - a) (by omega)
      rw [Nat.add_sub_cancel' ha] at hj
      exact hj.computes (by decide)
    · intro o hop hentry
      have hother : ∀ op, op ≠ .call → o.op ≠ op := by
        rintro op hne rfl
        exact hne hop
      exact ⟨⟨hother _ (by decide), by rw [hop]; rfl, fun _ => ⟨name, d, hd, hentry⟩⟩,
        hother _ (by decide), hother _ (by decide)⟩
  · obtain ⟨j, o, -, ho, hop, -, rfl⟩ := h
    exact Has.computes ⟨o, ho, hop, rfl⟩ (by decide)

end Layout

mutual

/-- The code of an expression computes. -/
theorem Expr.At.computes {L : Layout} {vars : List Bytes} {e : Expr Cell} {a b : Nat}
    (h : e.At L vars a b) : L.Each (fun _ => L.Computes) a b := by
  match e with
  | .absent => exact h.elim
  | .literal _ v =>
    obtain ⟨hi, rfl⟩ := h
    exact hi.computes
  | .load _ x =>
    obtain ⟨k, -, hi, rfl⟩ := h
    exact hi.computes (by decide)
  | .element _ x row col =>
    obtain ⟨m, n, k, hr, hc, -, hi, rfl⟩ := h
    exact (hr.computes.append hc.computes).append (hi.computes (by decide))
  | .newArray _ rows cols fill =>
    obtain ⟨m, n, hr, hc, hp, hi, rfl⟩ := h
    exact (hr.computes.append hc.computes).append (hp.computes.append (hi.computes (by decide)))
  | .call _ name args =>
    obtain ⟨m, ha, hcall⟩ := h
    exact (Expr.ArgumentsAt.computes ha).append hcall.computes
  | .binary _ op left right =>
    obtain ⟨m, n, o, ho, hl, hr, hi, rfl⟩ := h
    refine (hl.computes.append hr.computes).append (hi.computes ?_)
    cases op <;> cases ho <;> decide
  | .negation _ operand =>
    obtain ⟨m, ho, hi, rfl⟩ := h
    exact ho.computes.append (hi.computes (by decide))

/-- The code of the arguments of a call computes. -/
theorem Expr.ArgumentsAt.computes {L : Layout} {vars : List Bytes} {es : List (Expr Cell)}
    {a b : Nat} (h : Expr.ArgumentsAt L vars es a b) : L.Each (fun _ => L.Computes) a b := by
  match es with
  | [] =>
    obtain rfl := h
    exact .empty
  | e :: es =>
    obtain ⟨m, hes, he⟩ := h
    exact (Expr.ArgumentsAt.computes hes).append he.computes

end

namespace Layout

variable {L : Layout} {a b m : Nat}

/-- No jump and no beginning of a function is between two places, and calls go to functions. -/
abbrev Plain (L : Layout) (a b : Nat) : Prop := L.Each (fun _ => L.Steady) a b

/-- Two parts of plain code are plain together. -/
theorem Plain.append (h : L.Plain a m) (h' : L.Plain m b) : L.Plain a b := Each.append h h'

/-- A single instruction is plain. -/
theorem Has.plain (h : L.Has a op n) (hop : op ≠ .frame ∧ op.isBranch = false ∧ op ≠ .call) :
    L.Plain a (a + 1) := by
  refine h.each ?_
  rintro o rfl -
  exact ⟨hop.1, hop.2.1, fun hcall => absurd hcall hop.2.2⟩

/-- Code that computes is plain. -/
theorem Each.plain (h : L.Each (fun _ => L.Computes) a b) : L.Plain a b :=
  h.imp fun _ _ ho => ho.toSteady

/-- Pushing a constant is plain. -/
theorem Pushes.plain (h : L.Pushes a v) : L.Plain a (a + 1) := h.computes.plain

/-- Giving back false is plain. -/
theorem FalseAt.plain (h : L.FalseAt a b) : L.Plain a b := by
  obtain ⟨hpush, hret, rfl⟩ := h
  exact hpush.plain.append (hret.plain (by decide))

/-- The code of a call is plain. -/
theorem CallAt.plain {name : Bytes} (h : L.CallAt name k a b) : L.Plain a b := h.computes.plain

end Layout

/-- The code of an expression is plain. -/
theorem Expr.At.plain {e : Expr Cell} {a b : Nat} (h : e.At L vars a b) : L.Plain a b :=
  h.computes.plain

/-- The code of an expression ends behind its beginning. -/
theorem Expr.At.le {e : Expr Cell} {a b : Nat} (h : e.At L vars a b) : a ≤ b := h.plain.le

/-- The code of the arguments of a call is plain. -/
theorem Expr.ArgumentsAt.plain {es : List (Expr Cell)} {a b : Nat}
    (h : Expr.ArgumentsAt L vars es a b) : L.Plain a b :=
  h.computes.plain

/-- The code of the arguments of a call ends behind its beginning. -/
theorem Expr.ArgumentsAt.le {es : List (Expr Cell)} {a b : Nat}
    (h : Expr.ArgumentsAt L vars es a b) : a ≤ b := h.plain.le

namespace Layout

variable {L : Layout} {a b m e i q : Nat}

/-- The code of a counting loop up to the comparison of its index. -/
theorem Plain.comparison {count : Expr Cell} (hzero : L.Pushes a v)
    (hstore : L.Has (a + 1) .store k) (hload : L.Has (a + 2) .load k)
    (hc : count.At L vars (a + 3) m) (hless : L.Has m .lt 0) : L.Plain a (m + 1) := by
  have hstart : L.Plain a (a + 2) := hzero.plain.append (hstore.plain (by decide))
  have htest : L.Plain (a + 3) (m + 1) := hc.plain.append (hless.plain (by decide))
  exact hstart.append ((hload.plain (by decide)).append htest)

/-- The code of a counting loop that counts its index on. -/
theorem Plain.increment (hload : L.Has a .load k) (hone : L.Pushes (a + 1) v)
    (hadd : L.Has (a + 2) .add 0) (hstore : L.Has (a + 3) .store k) : L.Plain a (a + 4) := by
  have hsum : L.Plain (a + 1) (a + 3) := hone.plain.append (hadd.plain (by decide))
  exact (hload.plain (by decide)).append (hsum.append (hstore.plain (by decide)))

/-! ## Functions inside code -/

/-- A place that is not a beginning of a function is one of another instruction. -/
theorem Has.not_isEntry (h : L.Has a op n) (hop : op ≠ .frame) : ¬ L.program.IsEntry a := by
  rintro ⟨o, ho, hframe⟩
  obtain ⟨o', ho', rfl, -⟩ := h
  rw [ho'] at ho
  cases ho
  exact hop hframe

/-- No function begins in plain code. -/
theorem Plain.not_isEntry (h : L.Plain a b) (ha : a ≤ i) (hb : i < b) : ¬ L.program.IsEntry i := by
  rintro ⟨o, ho, hframe⟩
  exact (h.all i o ha hb ho).frame hframe

/-- The functions that begin between two places, which none does at the first, end there too. -/
structure Nested (L : Layout) (a b : Nat) : Prop where
  le : a ≤ b
  inner : ∀ e, a ≤ e → e < b → L.program.IsEntry e → a < e ∧ L.program.functionEnd e ≤ b

/-- No function begins in plain code, so none ends elsewhere. -/
theorem Plain.nested (h : L.Plain a b) : L.Nested a b :=
  ⟨h.le, fun _ ha hb he => absurd he (h.not_isEntry ha hb)⟩

/-- No function begins between a place and itself. -/
theorem Nested.empty : L.Nested a a := Plain.nested .empty

/-- No function begins at another instruction. -/
theorem Has.nested (h : L.Has a op n) (hop : op ≠ .frame) : L.Nested a (a + 1) := by
  refine ⟨Nat.le_succ a, fun e ha hb he => ?_⟩
  obtain rfl : e = a := Nat.le_antisymm (Nat.le_of_lt_succ hb) ha
  exact absurd he (h.not_isEntry hop)

/-- Functions that end in one of two parts end in the whole. -/
theorem Nested.append (h : L.Nested a m) (h' : L.Nested m b) : L.Nested a b := by
  refine ⟨Nat.le_trans h.le h'.le, fun e ha hb he => ?_⟩
  rcases Nat.lt_or_ge e m with hm | hm
  · exact ⟨(h.inner e ha hm he).1, Nat.le_trans (h.inner e ha hm he).2 h'.le⟩
  · exact ⟨Nat.lt_of_le_of_lt h.le (h'.inner e hm hb he).1, (h'.inner e hm hb he).2⟩

/-- Places are inside the function that begins at `e`, and every function declared inside it begins
between them, or begins behind or ends before them. -/
structure Inside (L : Layout) (e a b : Nat) : Prop where
  isEntry : L.program.IsEntry e
  lt : e < a
  le : b ≤ L.program.functionEnd e
  inner : ∀ e', e < e' → L.program.IsEntry e' →
    a ≤ e' ∧ e' < b ∨ b ≤ e' ∨ L.program.functionEnd e' ≤ a

/-- The code behind the beginning of a function is inside it. -/
theorem Inside.start (h : L.program.IsEntry e) : L.Inside e (e + 1) (L.program.functionEnd e) where
  isEntry := h
  lt := Nat.lt_succ_self e
  le := Nat.le_refl _
  inner e' he' _ := by omega

/-- A part of code inside a function is inside it, if functions do not reach into it. -/
theorem Inside.sub (h : L.Inside e a b) (hn : L.Nested a m) (hq : q ≤ b) : L.Inside e m q where
  isEntry := h.isEntry
  lt := Nat.lt_of_lt_of_le h.lt hn.le
  le := Nat.le_trans hq h.le
  inner e' he' hentry := by
    rcases h.inner e' he' hentry with ⟨ha, hb⟩ | hb | ha
    · rcases Nat.lt_or_ge e' m with hm | hm
      · exact .inr (.inr (hn.inner e' ha hm hentry).2)
      · omega
    · omega
    · exact .inr (.inr (Nat.le_trans ha hn.le))

/-- A place inside a function that is in no function declared inside it. -/
theorem Inside.codeOf (h : L.Inside e a b) (hn : L.Nested a i) (hb : i < b)
    (hi : ¬ L.program.IsEntry i) : L.program.CodeOf e i := by
  have hin := h.sub hn (Nat.succ_le_of_lt hb)
  refine ⟨⟨h.isEntry, Nat.le_of_lt hin.lt, hin.le⟩, fun e' hspans => ?_⟩
  obtain ⟨hentry, hle, hlt⟩ := hspans
  -- A function that begins later and reaches to the place would begin at it.
  rcases Nat.lt_or_ge e e' with he | he
  · rcases hin.inner e' he hentry with ⟨hi', hi''⟩ | hb | ha
    · obtain rfl : e' = i := by omega
      exact absurd hentry hi
    · omega
    · omega
  · exact he

/-- Where code begins that does not begin with a function is the code of the function it is in. -/
theorem Inside.codeOf_start (h : L.Inside e a b) (hn : L.Nested a b)
    (hb : L.program.CodeOf e b) : L.program.CodeOf e a := by
  rcases Nat.eq_or_lt_of_le hn.le with rfl | hlt
  · exact hb
  · refine h.codeOf .empty hlt fun hentry => ?_
    exact Nat.lt_irrefl a (hn.inner a (Nat.le_refl a) hlt hentry).1

/-- The function behind a jump around it ends where the jump goes. -/
theorem Has.functionEnd (h : L.Has a .jump b) : L.program.functionEnd (a + 1) = b := by
  obtain ⟨o, ho, -, rfl⟩ := h
  simp [Program.functionEnd, ho]

variable {params vars : List Bytes} {count : Nat}

/-- A function begins where its frame is allocated. -/
theorem PrologueAt.isEntry (h : L.PrologueAt params count vars a) : L.program.IsEntry a := by
  obtain ⟨-, -, ⟨o, ho, hop, -⟩, -⟩ := h
  exact ⟨o, ho, hop⟩

/-- The code that stores the arguments is plain. -/
theorem PrologueAt.plain (h : L.PrologueAt params count vars a) :
    L.Plain (a + 1) (a + 1 + params.length) := by
  obtain ⟨-, -, -, hstores⟩ := h
  refine .of_single (Nat.le_add_right ..) fun i ha hb => ?_
  obtain ⟨x, hx⟩ : ∃ x, params[i - (a + 1)]? = some x :=
    ⟨_, List.getElem?_eq_getElem (by omega)⟩
  obtain ⟨k, -, hhas⟩ := hstores _ x hx
  rw [Nat.add_sub_cancel' ha] at hhas
  exact hhas.plain (by decide)

/-- A function ends where the jump around it goes, and so all code in it. -/
theorem Has.nested_define (hi : L.Has a .jump b) (hn : L.Nested (a + 2) b) : L.Nested a b := by
  refine ⟨Nat.le_trans (Nat.le_add_right a 2) hn.le, fun e ha hb he => ?_⟩
  rcases Nat.eq_or_lt_of_le ha with rfl | ha
  · exact absurd he (hi.not_isEntry nofun)
  · rcases Nat.eq_or_lt_of_le (Nat.succ_le_of_lt ha) with rfl | ha'
    · exact ⟨Nat.lt_succ_self a, Nat.le_of_eq hi.functionEnd⟩
    · exact ⟨ha, (hn.inner e ha' hb he).2⟩

/-- A property of the code between two places that goes over from the parts to the whole. -/
structure Composes (L : Layout) (P : Nat → Nat → Prop) : Prop where
  /-- It holds where no function begins and nothing jumps. -/
  plain {a b : Nat} : L.Plain a b → P a b
  /-- It holds of a single instruction. -/
  single {a n : Nat} {op : Opcode} : L.Has a op n → op ≠ .frame → P a (a + 1)
  /-- It holds of two parts if it holds of both. -/
  append {a m b : Nat} : P a m → P m b → P a b
  /-- It holds of a function with the jump around it if it holds of its body. -/
  define {a m b : Nat} {d : Function} {vars : List Bytes} {stop : Option Nat} : L.Has a .jump b →
    L.PrologueAt d.params d.body.slotCount vars (a + 1) →
    d.body.At L vars stop [] (a + 2 + d.params.length) m → L.FalseAt m b →
    P (a + 2 + d.params.length) m → P a b

/-- That functions end in code goes over from its parts to the whole. -/
theorem nested_composes (L : Layout) : L.Composes L.Nested where
  plain := Plain.nested
  single := Has.nested
  append := Nested.append
  define hi hprologue _ hfalse hn :=
    hi.nested_define ((hprologue.plain.nested.append hn).append hfalse.plain.nested)

end Layout

/-- Whether a statement has no others in it and is no `leave`. -/
def Stmt.isSimple : Stmt Cell → Bool
  | .block .. | .branch .. | .whileLoop .. | .countLoop .. | .leave .. | .define .. => false
  | _ => true

/-- The code of a simple statement is plain. -/
theorem Stmt.At.plain {s : Stmt Cell} {stop : Option Nat} {hidden : List Nat} {a b : Nat}
    (h : s.At L vars stop hidden a b) (hs : s.isSimple = true) : L.Plain a b := by
  cases s with
  | absent =>
    obtain rfl := h
    exact .empty
  | declare _ x value =>
    obtain ⟨m, k, hv, -, -, hi, rfl⟩ := h
    exact hv.plain.append (hi.plain (by decide))
  | assign _ x value =>
    obtain ⟨m, k, hv, -, hi, rfl⟩ := h
    exact hv.plain.append (hi.plain (by decide))
  | assignElement _ x row col value =>
    obtain ⟨l, m, n, k, hr, hc, hv, -, hi, rfl⟩ := h
    exact (hr.plain.append (hc.plain.append hv.plain)).append (hi.plain (by decide))
  | giveBack _ value =>
    unfold Stmt.At at h
    split at h
    · exact h.plain
    · obtain ⟨m, hv, hi, rfl⟩ := h
      exact hv.plain.append (hi.plain (by decide))
  | perform _ name args =>
    obtain ⟨m, n, ha, hcall, hi, rfl⟩ := h
    exact ha.plain.append (hcall.plain.append (hi.plain (by decide)))
  | _ => cases hs

mutual

/-- The code of a statement is put together from parts, some of them functions. -/
theorem Stmt.At.composed {L : Layout} {P : Nat → Nat → Prop} (hP : L.Composes P)
    {vars : List Bytes} {stop : Option Nat} {hidden : List Nat} {s : Stmt Cell} {a b : Nat}
    (h : s.At L vars stop hidden a b) : P a b := by
  match s with
  | .absent | .declare .. | .assign .. | .assignElement .. | .giveBack .. | .perform .. =>
    exact hP.plain (h.plain rfl)
  | .block _ body =>
    have h : Stmt.AllAt L body vars stop hidden a b := h
    exact h.composed hP
  | .branch _ cond yes no =>
    obtain ⟨m, n, hc, hj, hy, hj', hn⟩ := h
    have htest := hP.append (hP.plain hc.plain) (hP.single hj (by decide))
    have hskip := hP.append (hP.single hj' (by decide)) (hn.composed hP)
    exact hP.append htest (hP.append (hy.composed hP) hskip)
  | .whileLoop _ cond body =>
    obtain ⟨m, n, hc, hj, hb, hj', rfl⟩ := h
    have htest := hP.append (hP.plain hc.plain) (hP.single hj (by decide))
    exact hP.append htest (hP.append (hb.composed hP) (hP.single hj' (by decide)))
  | .countLoop _ index count body =>
    obtain ⟨k, m, n, -, hzero, hstore, hload, hc, hless, hj, hb, hload', hone, hadd, hstore', hj',
      rfl⟩ := h
    have hhead := hP.plain (Layout.Plain.comparison hzero hstore hload hc hless)
    have htail := hP.plain (Layout.Plain.increment hload' hone hadd hstore')
    have htest := hP.append hhead (hP.single hj (by decide))
    have hback := hP.append htail (hP.single hj' (by decide))
    exact hP.append htest (hP.append (hb.composed hP) hback)
  | .leave _ =>
    obtain ⟨q, -, hi, rfl⟩ := h
    exact hP.single hi (by decide)
  | .define _ name params body =>
    obtain ⟨vars', m, hi, -, hprologue, hb, hfalse⟩ := h
    exact hP.define (d := ⟨name, params, body⟩) hi hprologue hb hfalse (hb.composed hP)

/-- The code of statements in sequence is put together from parts, some of them functions. -/
theorem Stmt.AllAt.composed {L : Layout} {P : Nat → Nat → Prop} (hP : L.Composes P)
    {vars : List Bytes} {stop : Option Nat} {hidden : List Nat} {ss : List (Stmt Cell)} {a b : Nat}
    (h : Stmt.AllAt L ss vars stop hidden a b) : P a b := by
  match ss with
  | [] =>
    obtain rfl := h
    exact hP.plain .empty
  | s :: ss =>
    obtain ⟨m, hs, hrest⟩ := h
    exact hP.append (hs.composed hP) (hrest.composed hP)

end

section

variable {stop : Option Nat} {hidden : List Nat} {s : Stmt Cell} {ss : List (Stmt Cell)} {a b : Nat}

/-- Functions that begin in the code of a statement end there. -/
theorem Stmt.At.nested (h : s.At L vars stop hidden a b) : L.Nested a b :=
  h.composed L.nested_composes

/-- The code of a statement ends behind its beginning. -/
theorem Stmt.At.le (h : s.At L vars stop hidden a b) : a ≤ b := h.nested.le

/-- Functions that begin in the code of statements end there. -/
theorem Stmt.AllAt.nested (h : Stmt.AllAt L ss vars stop hidden a b) : L.Nested a b :=
  h.composed L.nested_composes

/-- The code of statements in sequence ends behind its beginning. -/
theorem Stmt.AllAt.le (h : Stmt.AllAt L ss vars stop hidden a b) : a ≤ b := h.nested.le

end

/-! ## Where jumps go -/

namespace Layout

variable {L : Layout} {a b m e i q n : Nat}

/-- All jumps between two places go to the code of the function they are in. -/
def StaysIn (L : Layout) (a b : Nat) : Prop := ∀ i, a ≤ i → i < b → L.program.StaysAt i

/-- Jumps that stay do so in a part of the code. -/
theorem StaysIn.sub (h : L.StaysIn a b) (ham : a ≤ m) (hqb : q ≤ b) : L.StaysIn m q :=
  fun i hm hq => h i (Nat.le_trans ham hm) (Nat.lt_of_lt_of_le hq hqb)

/-- Jumps of two parts that stay do so in the whole. -/
theorem StaysIn.append (h : L.StaysIn a m) (h' : L.StaysIn m b) : L.StaysIn a b := by
  intro i ha hb
  rcases Nat.lt_or_ge i m with hm | hm
  · exact h i ha hm
  · exact h' i hm hb

/-- Plain code has no jumps. -/
theorem Plain.staysIn (h : L.Plain a b) : L.StaysIn a b := by
  intro i ha hb o ho hjump
  rw [(h.all i o ha hb ho).branch] at hjump
  cases hjump

/-- A jump to code of its function stays. -/
theorem Has.staysIn (h : L.Has a op q) (ha : L.program.CodeOf e a) (hq : L.program.CodeOf e q) :
    L.StaysIn a (a + 1) := by
  intro i hi hi' o ho _
  obtain rfl : i = a := Nat.le_antisymm (Nat.le_of_lt_succ hi') hi
  obtain ⟨o', ho', -, rfl⟩ := h
  rw [ho'] at ho
  cases ho
  exact ⟨e, ha, hq⟩

/-- The beginning of a function is no jump. -/
theorem PrologueAt.staysIn {params : List Bytes} {count : Nat}
    (h : L.PrologueAt params count vars a) : L.StaysIn a (a + 1) := by
  intro i hi hi' o ho hjump
  obtain rfl : i = a := Nat.le_antisymm (Nat.le_of_lt_succ hi') hi
  obtain ⟨o', ho', hop⟩ := h.isEntry
  rw [ho'] at ho
  cases ho
  rw [hop] at hjump
  cases hjump

/-- A jump out of the function does not stay. -/
theorem Has.not_staysIn (h : L.Has a .jump q) (ha : L.program.CodeOf e a)
    (hq : L.program.functionEnd e ≤ q) : ¬ L.StaysIn a (a + 1) := by
  intro hstays
  obtain ⟨o, ho, hop, rfl⟩ := h
  obtain ⟨e', ha', hq'⟩ := hstays a (Nat.le_refl a) (Nat.lt_succ_self a) o ho (by rw [hop]; rfl)
  rw [ha.unique ha'] at hq
  exact Nat.not_lt.mpr hq hq'.1.2.2

/-- Where a `leave` inside a function goes: to the code of the function if it is in a loop of it,
and behind the function otherwise; in any case behind the statement that it is in. -/
structure StopsAt (L : Layout) (stop : Option Nat) (inLoop : Bool) (e b : Nat) : Prop where
  le : ∀ q, stop = some q → b ≤ q
  inside : ∀ q, stop = some q → inLoop = true → L.program.CodeOf e q
  behind : ∀ q, stop = some q → inLoop = false → L.program.functionEnd e ≤ q

/-- Where a `leave` in a part of a statement goes. -/
theorem StopsAt.sub {stop : Option Nat} (h : L.StopsAt stop inLoop e b) (hq : q ≤ b) :
    L.StopsAt stop inLoop e q :=
  { h with le := fun r hr => Nat.le_trans hq (h.le r hr) }

/-- A loop is left to the place behind it. -/
theorem StopsAt.loop (hb : L.program.CodeOf e b) (hq : q ≤ b) : L.StopsAt (some b) true e q where
  le := by
    rintro r ⟨⟩
    exact hq
  inside := by
    rintro r ⟨⟩ -
    exact hb
  behind := nofun

end Layout

/-- Every `leave` of a statement, and of the functions declared in it, is inside a loop of its own
function. -/
def Stmt.Confined (s : Stmt Cell) (inLoop : Bool) : Prop :=
  s.leavesLoops inLoop = true ∧ ∀ d ∈ s.functions, d.body.leavesLoops false = true

/-- The jumps in the code of the statement stay in their functions exactly if it is confined. -/
def Stmt.StaysIff (L : Layout) (s : Stmt Cell) : Prop :=
  ∀ ⦃vars : List Bytes⦄ ⦃stop : Option Nat⦄ ⦃hidden : List Nat⦄ ⦃inLoop : Bool⦄ ⦃e a b : Nat⦄,
    s.At L vars stop hidden a b → L.Inside e a b → L.program.CodeOf e b →
    L.StopsAt stop inLoop e b → (L.StaysIn a b ↔ s.Confined inLoop)

/-- A simple statement has neither a `leave` nor a function. -/
theorem simple_staysIff {s : Stmt Cell} (hs : s.isSimple = true) : s.StaysIff L := by
  intro vars stop hidden inLoop e a b h _ _ _
  refine ⟨fun _ => ?_, fun _ => (h.plain hs).staysIn⟩
  cases s <;> first | exact ⟨rfl, List.forall_mem_nil _⟩ | cases hs

section

variable {L : Layout}

/-- A branch is confined if its parts are. -/
theorem branch_staysIff (pos : Position) (cond : Expr Cell) {yes no : Stmt Cell}
    (hyes : yes.StaysIff L) (hno : no.StaysIff L) : (Stmt.branch pos cond yes no).StaysIff L := by
  intro vars stop hidden inLoop e a b h hin hb hstop
  obtain ⟨m, n, hc, hj, hy, hj', hn⟩ := h
  have hy' := hy.le
  have hn' := hn.le
  have hm : L.Nested a (m + 1) := hc.plain.nested.append (hj.nested nofun)
  have hn'' : L.Nested a n := hm.append hy.nested
  have hno' : L.Nested a (n + 1) := hn''.append (hj'.nested nofun)
  -- The places of the two jumps and of the second branch are in the code of the function.
  have hatm := hin.codeOf hc.plain.nested (by omega) (hj.not_isEntry nofun)
  have hatn := hin.codeOf hn'' (by omega) (hj'.not_isEntry nofun)
  have hin' := hin.sub hno' (Nat.le_refl b)
  have hatno := hin'.codeOf_start hn.nested hb
  have iyes := hyes hy (hin.sub hm (by omega)) hatn (hstop.sub (by omega))
  have ino := hno hn hin' hb hstop
  have hsplit : (Stmt.branch pos cond yes no).Confined inLoop ↔
      yes.Confined inLoop ∧ no.Confined inLoop := by
    simp only [Stmt.Confined, Stmt.leavesLoops, Stmt.functions, Bool.and_eq_true, List.mem_append,
      or_imp, forall_and]
    exact and_and_and_comm
  rw [hsplit, ← iyes, ← ino]
  constructor
  · exact fun h => ⟨h.sub hm.le (by omega), h.sub hno'.le (Nat.le_refl b)⟩
  · rintro ⟨hy, hn⟩
    exact ((hc.plain.staysIn.append (hj.staysIn hatm hatno)).append hy).append
      ((hj'.staysIn hatn hb).append hn)

/-- A loop is confined if its body is, in which a `leave` may be. -/
theorem whileLoop_staysIff (pos : Position) (cond : Expr Cell) (hbody : body.StaysIff L) :
    (Stmt.whileLoop pos cond body).StaysIff L := by
  intro vars stop hidden inLoop e a b h hin hb hstop
  have hstart := hin.codeOf_start h.nested hb
  obtain ⟨m, n, hc, hj, hbo, hj', rfl⟩ := h
  have hbo' := hbo.le
  have hm : L.Nested a (m + 1) := hc.plain.nested.append (hj.nested nofun)
  have hn : L.Nested a n := hm.append hbo.nested
  have hatm := hin.codeOf hc.plain.nested (by omega) (hj.not_isEntry nofun)
  have hatn := hin.codeOf hn (by omega) (hj'.not_isEntry nofun)
  have ibody := hbody hbo (hin.sub hm (by omega)) hatn (.loop hb (by omega))
  have hconfined : (Stmt.whileLoop pos cond body).Confined inLoop ↔ body.Confined true := Iff.rfl
  rw [hconfined, ← ibody]
  constructor
  · exact fun h => h.sub hm.le (by omega)
  · exact fun h => ((hc.plain.staysIn.append (hj.staysIn hatm hb)).append h).append
      (hj'.staysIn hatn hstart)

/-- A counting loop is confined if its body is, in which a `leave` may be. -/
theorem countLoop_staysIff (pos : Position) (index : Bytes) (count : Expr Cell)
    (hbody : body.StaysIff L) : (Stmt.countLoop pos index count body).StaysIff L := by
  intro vars stop hidden inLoop e a b h hin hb hstop
  obtain ⟨k, m, n, -, hzero, hstore, hload, hc, hless, hj, hbo, hload', hone, hadd, hstore', hj',
    rfl⟩ := h
  have hbo' := hbo.le
  have hfirst : L.Plain a (a + 2) := hzero.plain.append (hstore.plain (by decide))
  have hhead := Layout.Plain.comparison hzero hstore hload hc hless
  have htail := Layout.Plain.increment hload' hone hadd hstore'
  have hm : L.Nested a (m + 2) := hhead.nested.append (hj.nested nofun)
  have hn : L.Nested a n := hm.append hbo.nested
  have hend : L.Nested a (n + 4) := hn.append htail.nested
  -- The two jumps, the place behind the body and the place of the test are in the code of the
  -- function.
  have hatm := hin.codeOf hhead.nested (by omega) (hj.not_isEntry nofun)
  have hatn := hin.codeOf hn (by omega) (hload'.not_isEntry nofun)
  have hatend := hin.codeOf hend (by omega) (hj'.not_isEntry nofun)
  have hle := hc.le
  have htest := hin.codeOf hfirst.nested (by omega) (hload.not_isEntry nofun)
  have ibody := hbody hbo (hin.sub hm (by omega)) hatn (.loop hb (by omega))
  have hconfined : (Stmt.countLoop pos index count body).Confined inLoop ↔ body.Confined true :=
    Iff.rfl
  rw [hconfined, ← ibody]
  constructor
  · exact fun h => h.sub hm.le (by omega)
  · exact fun h => ((hhead.staysIn.append (hj.staysIn hatm hb)).append h).append
      (htail.staysIn.append (hj'.staysIn hatend htest))

/-- Functions. What a `leave` in the function jumps to, if that is not in a loop of its own, is
behind the function. -/
theorem define_staysIff (pos : Position) (name : Bytes) (params : List Bytes)
    (hbody : body.StaysIff L) : (Stmt.define pos name params body).StaysIff L := by
  intro vars stop hidden inLoop e a b h hin hb hstop
  obtain ⟨vars', m, hi, -, hprologue, hbo, hfalse⟩ := h
  have hbo' := hbo.le
  have hm : b = m + 2 := hfalse.2.2
  have hata := hin.codeOf .empty (by omega) (hi.not_isEntry nofun)
  -- From here on the innermost function is the declared one, which begins behind the jump.
  have hinner := Layout.Inside.start hprologue.isEntry
  rw [hi.functionEnd] at hinner
  have hatm : L.program.CodeOf (a + 1) m := by
    obtain ⟨k, -, hfirst⟩ := hfalse.1
    exact hinner.codeOf (hprologue.plain.nested.append hbo.nested) (by omega)
      (hfirst.not_isEntry nofun)
  have hstop' : L.StopsAt stop false (a + 1) m :=
    { le := fun q hq => Nat.le_trans (by omega) (hstop.le q hq)
      inside := nofun
      behind := fun q hq _ => by rw [hi.functionEnd]; exact hstop.le q hq }
  have ibody := hbody hbo (hinner.sub hprologue.plain.nested (by omega)) hatm hstop'
  have hsplit : (Stmt.define pos name params body).Confined inLoop ↔ body.Confined false := by
    simp only [Stmt.Confined, Stmt.leavesLoops, Stmt.functions, List.forall_mem_cons, true_and]
  rw [hsplit, ← ibody]
  constructor
  · exact fun h => h.sub (by omega) (by omega)
  · exact fun h => ((hi.staysIn hata hb).append hprologue.staysIn).append
      (hprologue.plain.staysIn.append (h.append hfalse.plain.staysIn))

/-- A `leave` is confined in a loop only. -/
theorem leave_staysIff (pos : Position) : (Stmt.leave pos).StaysIff L := by
  intro vars stop hidden inLoop e a b h hin hb hstop
  have hata := hin.codeOf_start h.nested hb
  obtain ⟨q, hq, hi, rfl⟩ := h
  cases inLoop with
  | true =>
    exact ⟨fun _ => ⟨rfl, List.forall_mem_nil _⟩, fun _ =>
      hi.staysIn hata (hstop.inside q hq rfl)⟩
  | false =>
    exact ⟨fun h => absurd h (hi.not_staysIn hata (hstop.behind q hq rfl)), fun h =>
      absurd h.1 Bool.false_ne_true⟩

mutual

/-- The jumps in the code of any statement stay in their functions exactly if it is confined. -/
theorem Stmt.staysIff (s : Stmt Cell) : s.StaysIff L := by
  match s with
  | .absent | .declare .. | .assign .. | .assignElement .. | .giveBack .. | .perform .. =>
    exact simple_staysIff rfl
  | .block pos body => exact Stmt.block_staysIff pos body
  | .branch pos cond yes no =>
    exact branch_staysIff pos cond (Stmt.staysIff yes) (Stmt.staysIff no)
  | .whileLoop pos cond body => exact whileLoop_staysIff pos cond (Stmt.staysIff body)
  | .countLoop pos index count body =>
    exact countLoop_staysIff pos index count (Stmt.staysIff body)
  | .leave pos => exact leave_staysIff pos
  | .define pos name params body => exact define_staysIff pos name params (Stmt.staysIff body)

/-- The jumps in the code of statements in sequence stay in their functions exactly if they are
confined. -/
theorem Stmt.block_staysIff (pos : Position) (ss : List (Stmt Cell)) :
    (Stmt.block pos ss).StaysIff L := by
  match ss with
  | [] =>
    intro vars stop hidden inLoop e a b h _ _ _
    obtain rfl := h
    exact ⟨fun _ => ⟨rfl, List.forall_mem_nil _⟩, fun _ => Layout.Plain.staysIn .empty⟩
  | s :: ss =>
    intro vars stop hidden inLoop e a b h hin hb hstop
    obtain ⟨m, hs, hrest⟩ := h
    have hin' := hin.sub hs.nested (Nat.le_refl b)
    -- Functions in the first statement end in it, so the rest is code of the same function.
    have hatm := hin'.codeOf_start (Stmt.AllAt.nested hrest) hb
    have ifirst := Stmt.staysIff s hs (hin.sub .empty hrest.le) hatm
      (hstop.sub hrest.le)
    have irest := Stmt.block_staysIff pos ss hrest hin' hb hstop
    have hsplit : (Stmt.block pos (s :: ss)).Confined inLoop ↔
        s.Confined inLoop ∧ (Stmt.block pos ss).Confined inLoop := by
      simp only [Stmt.Confined, Stmt.leavesLoops, Stmt.allLeaveLoops, Stmt.functions,
        Stmt.allFunctions, Bool.and_eq_true, List.mem_append, or_imp, forall_and]
      exact and_and_and_comm
    rw [hsplit, ← ifirst, ← irest]
    exact ⟨fun h => ⟨h.sub (Nat.le_refl a) hrest.le, h.sub hs.le (Nat.le_refl b)⟩,
      fun h => h.1.append h.2⟩

end

end

/-! ## Whole programs -/

mutual

/-- A `leave` that has code is inside some loop. -/
theorem Stmt.At.leavesSomeLoops {L : Layout} {s : Stmt Cell} {vars : List Bytes} {stop : Option Nat}
    {hidden : List Nat} {a b : Nat} (h : s.At L vars stop hidden a b) :
    s.leavesSomeLoops stop.isSome = true := by
  match s with
  | .absent | .declare .. | .assign .. | .assignElement .. | .giveBack .. | .perform .. =>
    rfl
  | .block _ body => exact Stmt.AllAt.leavesSomeLoops h
  | .branch _ cond yes no =>
    obtain ⟨m, n, -, -, hyes, -, hno⟩ := h
    exact Bool.and_eq_true_iff.mpr ⟨hyes.leavesSomeLoops, hno.leavesSomeLoops⟩
  | .whileLoop _ cond body =>
    obtain ⟨m, n, -, -, hbody, -⟩ := h
    exact hbody.leavesSomeLoops
  | .countLoop _ index count body =>
    obtain ⟨k, m, n, -, -, -, -, -, -, -, hbody, -⟩ := h
    exact hbody.leavesSomeLoops
  | .leave _ =>
    obtain ⟨q, rfl, -⟩ := h
    rfl
  | .define _ name params body =>
    obtain ⟨vars, m, -, -, -, hbody, -⟩ := h
    exact hbody.leavesSomeLoops

/-- Every `leave` of statements that have code is inside some loop. -/
theorem Stmt.AllAt.leavesSomeLoops {L : Layout} {ss : List (Stmt Cell)} {vars : List Bytes}
    {stop : Option Nat} {hidden : List Nat} {a b : Nat} (h : Stmt.AllAt L ss vars stop hidden a b) :
    Stmt.allLeaveSomeLoops stop.isSome ss = true := by
  match ss with
  | [] => rfl
  | s :: ss =>
    obtain ⟨m, hs, hrest⟩ := h
    exact Bool.and_eq_true_iff.mpr ⟨hs.leavesSomeLoops, Stmt.AllAt.leavesSomeLoops hrest⟩

end

/-- All jumps of a program stay in their functions exactly if every `leave` is inside a loop of its
own function. -/
theorem Compiled.jumpsStay_iff {t : Tree Cell} {imports : List Import} (hL : Compiled t imports L) :
    L.program.JumpsStay ↔ t.leavesLoops = true := by
  obtain ⟨vars, m, hprologue, hbody, hfalse⟩ := hL.program
  have hle := hbody.le
  have hm : L.program.code.size = m + 2 := hfalse.2.2
  have hin : L.Inside 0 1 L.program.code.size := Layout.Inside.start hprologue.isEntry
  have hatm : L.program.CodeOf 0 m := by
    obtain ⟨k, -, hfirst⟩ := hfalse.1
    exact hin.codeOf hbody.nested (by omega) (hfirst.not_isEntry nofun)
  have hstop : L.StopsAt none false 0 m := ⟨nofun, nofun, nofun⟩
  have ibody := Stmt.block_staysIff t.pos t.body hbody
    (hin.sub .empty (by omega)) hatm hstop
  have hconfined : (Stmt.block t.pos t.body).Confined false ↔ t.leavesLoops = true := by
    rw [Tree.leavesLoops, Bool.and_eq_true, List.all_eq_true]
    rfl
  rw [← hconfined, ← ibody]
  -- What stands around the body, the beginning of the program and its end, has no jumps.
  refine ⟨fun h i _ _ => h i, fun h i => ?_⟩
  have hall : L.StaysIn 0 L.program.code.size :=
    (hprologue.staysIn.append h).append hfalse.plain.staysIn
  intro o ho
  exact hall i (Nat.zero_le i) (Array.getElem?_eq_some_iff.mp ho).1 o ho

/-- All jumps of a compiled program go to instructions in the code of the same function exactly if
every `leave` of the tree is inside a loop of its own function. Only trees are compiled in which
every `leave` is inside a loop, but that loop may be around the function. -/
theorem jumpsStay_iff_leavesLoops {t : Tree Cell} {imports : List Import} {p : Program}
    (h : compile t imports = .ok p) (hfits : p.code.size < 0x8000000000000000) :
    (p.JumpsStay ↔ t.leavesLoops = true) ∧ t.leavesSomeLoops = true := by
  obtain ⟨L, rfl, hL⟩ := compile_layout h hfits
  obtain ⟨vars, m, -, hbody, -⟩ := hL.program
  exact ⟨hL.jumpsStay_iff, hbody.leavesSomeLoops⟩

/-- A function inside a loop that leaves only a loop of its own has no jump out of it. -/
theorem jumpsStay_sumOfSquares : ∃ p, compile .sumOfSquares [] = .ok p ∧
    p.code.size < 0x8000000000000000 ∧ p.JumpsStay ∧ Tree.sumOfSquares.leavesSomeLoops = true := by
  obtain ⟨p, h, hfits⟩ := exists_compile .sumOfSquares []
    (fun p => p.code.size < 0x8000000000000000) (by decide +kernel)
  obtain ⟨hiff, hsome⟩ := jumpsStay_iff_leavesLoops h hfits
  exact ⟨p, h, hfits, hiff.mpr (by decide), hsome⟩

/-- A function that leaves the loop it is declared in is compiled, and has a jump out of it. -/
theorem not_jumpsStay_leftByFunction :
    ∃ p, compile .leftByFunction [] = .ok p ∧ ¬ p.JumpsStay := by
  obtain ⟨p, h, hfits⟩ := exists_compile .leftByFunction []
    (fun p => p.code.size < 0x8000000000000000) (by decide +kernel)
  obtain ⟨L, rfl, hL⟩ := compile_layout h hfits
  exact ⟨L.program, h, fun hstay => absurd (hL.jumpsStay_iff.mp hstay) (by decide)⟩

end StackScript
