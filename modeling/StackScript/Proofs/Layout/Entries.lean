import StackScript.Proofs.Layout.Locality

/-!
# How functions are entered

In a compiled program the only way into a function is a call. The instruction in front of its frame
is the jump around it, so that no other instruction goes on there; and jumps, those of a `leave` to
the end of a loop in another function included, go to places where no function begins.
-/

namespace StackScript

variable {L : Layout} {imports : List Import} {op : Opcode} {t : Tree Cell}

namespace Program

/-- An instruction at a place does not lead into a function, unless it calls it. -/
structure GuardedAt (p : Program) (place : Nat) (i : Instruction) : Prop where
  /-- In front of a function there is a jump. -/
  behind : i.op ≠ .jump → ¬ p.IsEntry (place + 1)
  /-- A jump does not go to a function. -/
  branch : i.op.isBranch = true → ¬ p.IsEntry i.operand.toNat
  /-- A call goes to a function. -/
  call : i.op = .call → p.IsEntry i.operand.toNat

/-- A program begins with a frame, and its functions are entered by calls only. -/
structure Guarded (p : Program) : Prop where
  start : p.IsEntry 0
  code : ∀ (place : Nat) (i : Instruction), p.code[place]? = some i → p.GuardedAt place i

end Program

namespace Layout

/-- The functions of a layout begin at their entries. -/
def HasEntries (L : Layout) : Prop :=
  ∀ name d, functionNamed? L.functions name = some d → L.program.IsEntry (L.entry name)

/-- No instruction between two places leads into a function, unless it calls it. -/
abbrev Guarding (L : Layout) (a b : Nat) : Prop := L.Each L.program.GuardedAt a b

variable {L : Layout} {a b m n : Nat}

/-- Code without jumps, in front of a place where no function begins. -/
theorem Plain.guarding (h : L.Plain a b) (hL : L.HasEntries) (hb : ¬ L.program.IsEntry b) :
    L.Guarding a b := by
  refine ⟨h.le, fun q i ha hq hi => ?_⟩
  obtain ⟨-, hbranch, hcall⟩ := h.all q i ha hq hi
  refine ⟨fun _ => ?_, fun hop => absurd hop (by simp [hbranch]), fun hop => ?_⟩
  · rcases Nat.eq_or_lt_of_le (Nat.succ_le_of_lt hq) with rfl | hlt
    · exact hb
    · exact h.not_isEntry (Nat.le_succ_of_le ha) hlt
  · obtain ⟨name, d, hd, hentry⟩ := hcall hop
    rw [hentry]
    exact hL name d hd

/-- An instruction is guarding if it leads to no entry. -/
theorem Has.guarding (h : L.Has a op n) (hbehind : op ≠ .jump → ¬ L.program.IsEntry (a + 1))
    (hbranch : op.isBranch = true → ¬ L.program.IsEntry n) (hcall : op ≠ .call) :
    L.Guarding a (a + 1) := by
  refine h.each ?_
  rintro o rfl rfl
  exact ⟨hbehind, hbranch, fun hop => absurd hop hcall⟩

/-- No function begins where code begins, unless it is empty and one begins behind. -/
theorem Nested.not_isEntry (h : L.Nested a b) (hb : ¬ L.program.IsEntry b) :
    ¬ L.program.IsEntry a := by
  rcases Nat.eq_or_lt_of_le h.le with rfl | hlt
  · exact hb
  · exact fun ha => Nat.lt_irrefl a (h.inner a (Nat.le_refl a) hlt ha).1

/-- The beginning of a function, in front of a place where none begins. -/
theorem PrologueAt.guarding (hL : L.HasEntries) {params vars : List Bytes} {count : Nat}
    (h : L.PrologueAt params count vars a)
    (hbody : ¬ L.program.IsEntry (a + 1 + params.length)) :
    L.Guarding a (a + 1 + params.length) := by
  have hsecond := h.plain.nested.not_isEntry hbody
  exact (h.2.2.1.guarding (fun _ => hsecond) (fun hop => absurd hop (by decide))
    (by decide)).append (h.plain.guarding hL hbody)

end Layout

mutual

/-- The code of a statement leads into no function, if the places that it goes on at do not. -/
theorem Stmt.At.guarding {L : Layout} (hL : L.HasEntries) {vars : List Bytes} {stop : Option Nat}
    {hidden : List Nat} {s : Stmt Cell} {a b : Nat} (h : s.At L vars stop hidden a b)
    (hb : ¬ L.program.IsEntry b) (hstop : ∀ q, stop = some q → ¬ L.program.IsEntry q) :
    L.Guarding a b := by
  match s with
  | .absent | .declare .. | .assign .. | .assignElement .. | .giveBack .. | .perform .. =>
    exact (h.plain rfl).guarding hL hb
  | .block _ body =>
    have h : Stmt.AllAt L body vars stop hidden a b := h
    exact h.guarding hL hb hstop
  | .branch _ cond yes no =>
    obtain ⟨m, n, hc, hj, hy, hj', hn⟩ := h
    -- A branch may be empty, so where it begins depends on what is behind it.
    have hno := hn.nested.not_isEntry hb
    have hyes := hy.nested.not_isEntry (hj'.not_isEntry (by decide))
    have hcond := hc.plain.guarding hL (hj.not_isEntry (by decide))
    have htest := hj.guarding (fun _ => hyes) (fun _ => hno) (by decide)
    have hskip := hj'.guarding (fun h => absurd rfl h) (fun _ => hb) (by decide)
    exact (hcond.append htest).append ((hy.guarding hL (hj'.not_isEntry (by decide)) hstop).append
      (hskip.append (hn.guarding hL hb hstop)))
  | .whileLoop _ cond body =>
    have hstart := h.nested.not_isEntry hb
    obtain ⟨m, n, hc, hj, hbo, hj', rfl⟩ := h
    have hbody := hbo.nested.not_isEntry (hj'.not_isEntry (by decide))
    have hcond := hc.plain.guarding hL (hj.not_isEntry (by decide))
    have htest := hj.guarding (fun _ => hbody) (fun _ => hb) (by decide)
    have hback := hj'.guarding (fun h => absurd rfl h) (fun _ => hstart) (by decide)
    refine (hcond.append htest).append
      ((hbo.guarding hL (hj'.not_isEntry (by decide)) ?_).append hback)
    rintro q ⟨⟩
    exact hb
  | .countLoop _ index count body =>
    obtain ⟨k, m, n, -, hzero, hstore, hload, hc, hless, hj, hbo, hload', hone, hadd, hstore', hj',
      rfl⟩ := h
    have hbody := hbo.nested.not_isEntry (hload'.not_isEntry (by decide))
    have hhead : L.Guarding a (m + 1) :=
      (Layout.Plain.comparison hzero hstore hload hc hless).guarding hL
        (hj.not_isEntry (by decide))
    have htest := hj.guarding (fun _ => hbody) (fun _ => hb) (by decide)
    have htail : L.Guarding n (n + 4) :=
      (Layout.Plain.increment hload' hone hadd hstore').guarding hL
        (hj'.not_isEntry (by decide))
    have hback := hj'.guarding (fun h => absurd rfl h) (fun _ => hload.not_isEntry (by decide))
      (by decide)
    refine (hhead.append htest).append ((hbo.guarding hL (hload'.not_isEntry (by decide)) ?_).append
      (htail.append hback))
    rintro q ⟨⟩
    exact hb
  | .leave _ =>
    obtain ⟨q, hq, hi, rfl⟩ := h
    exact hi.guarding (fun h => absurd rfl h) (fun _ => hstop q hq) (by decide)
  | .define _ name params body =>
    -- The jump around the function is the only instruction here with a function behind it.
    obtain ⟨vars', m, hi, -, hprologue, hbo, hfalse⟩ := h
    have hlast := hfalse.plain.nested.not_isEntry hb
    have hskip := hi.guarding (fun h => absurd rfl h) (fun _ => hb) (by decide)
    have hbegin := hprologue.guarding hL (hbo.nested.not_isEntry hlast)
    exact hskip.append (hbegin.append ((hbo.guarding hL hlast hstop).append
      (hfalse.plain.guarding hL hb)))

/-- The code of statements in sequence leads into no function. -/
theorem Stmt.AllAt.guarding {L : Layout} (hL : L.HasEntries) {vars : List Bytes}
    {stop : Option Nat} {hidden : List Nat} {ss : List (Stmt Cell)} {a b : Nat}
    (h : Stmt.AllAt L ss vars stop hidden a b) (hb : ¬ L.program.IsEntry b)
    (hstop : ∀ q, stop = some q → ¬ L.program.IsEntry q) :
    L.Guarding a b := by
  match ss with
  | [] =>
    obtain rfl := h
    exact Layout.Each.empty
  | s :: ss =>
    obtain ⟨m, hs, hrest⟩ := h
    have hm := hrest.nested.not_isEntry hb
    exact (hs.guarding hL hm hstop).append (hrest.guarding hL hb hstop)

end

/-- The functions of a compiled program begin at their entries. -/
theorem Compiled.hasEntries (h : Compiled t imports L) : L.HasEntries := by
  intro name d hd
  obtain ⟨-, vars, stop, b, m, hprologue, -⟩ := h.function_at hd
  exact hprologue.isEntry

/-- Functions of a compiled program are entered by calls only. -/
theorem Compiled.guarded (h : Compiled t imports L) : L.program.Guarded := by
  obtain ⟨vars, m, hprologue, hbody, hfalse⟩ := h.program
  have hend : ¬ L.program.IsEntry L.program.code.size := by
    rintro ⟨i, hi, -⟩
    rw [Array.getElem?_eq_none (Nat.le_refl _)] at hi
    cases hi
  have hlast := hfalse.plain.nested.not_isEntry hend
  have hbegin := hprologue.guarding h.hasEntries (hbody.nested.not_isEntry hlast)
  have hall : L.Guarding 0 L.program.code.size :=
    hbegin.append ((hbody.guarding h.hasEntries hlast (fun _ h => by cases h)).append
      (hfalse.plain.guarding h.hasEntries hend))
  refine ⟨hprologue.isEntry, fun place i hi => ?_⟩
  exact hall.all place i (Nat.zero_le place) (Array.getElem?_eq_some_iff.mp hi).1 hi

end StackScript
