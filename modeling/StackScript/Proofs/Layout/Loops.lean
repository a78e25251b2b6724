import StackScript.Proofs.Layout.Locality

/-!
# Counting loops and their code

Every counting loop of a tree, wherever it stands, has code in its function (`CountLoop.Code`). If
its body neither leaves it nor gives anything back, and neither declares nor assigns its index, the
code of the body does not store into the slot of the index, does not return, and jumps to no place
outside (`CountLoop.Code.encloses_body`). What stands in a function that the body declares is code
of that function and does not count.
-/

namespace StackScript

/-! ## Counting loops of a tree -/

/-- A counting loop of a tree. -/
structure CountLoop where
  /-- The name of its index, empty if there is none. -/
  index : Bytes
  /-- How often it is repeated. -/
  count : Expr Cell
  /-- What is repeated. -/
  body : Stmt Cell

mutual

/-- The counting loops in a statement, those in functions that it declares included. -/
def Stmt.countLoops : Stmt Cell → List CountLoop
  | .absent => []
  | .block _ body => Stmt.allCountLoops body
  | .declare _ _ _ => []
  | .assign _ _ _ => []
  | .assignElement _ _ _ _ _ => []
  | .branch _ _ yes no => yes.countLoops ++ no.countLoops
  | .whileLoop _ _ body => body.countLoops
  | .countLoop _ index count body => ⟨index, count, body⟩ :: body.countLoops
  | .leave _ => []
  | .giveBack _ _ => []
  | .define _ _ _ body => body.countLoops
  | .perform _ _ _ => []

/-- The counting loops in statements in sequence. -/
def Stmt.allCountLoops : List (Stmt Cell) → List CountLoop
  | [] => []
  | s :: ss => s.countLoops ++ Stmt.allCountLoops ss

end

/-- The counting loops in a program. -/
def Tree.countLoops (t : Tree Cell) : List CountLoop := Stmt.allCountLoops t.body

/-- Whether a name is that of a variable other than the index of a loop. -/
def isOtherName (index x : Bytes) : Bool := isPlainName x && (index.isEmpty || x != index)

mutual

/-- Whether a statement in the body of a loop with the given index neither leaves the loop nor gives
anything back, and declares and assigns only other variables; `inner` says whether it is inside
another loop in the body. Functions that it declares do not matter. -/
def Stmt.keepsLoop (index : Bytes) (inner : Bool) : Stmt Cell → Bool
  | .absent => true
  | .block _ body => Stmt.allKeepLoop index inner body
  | .declare _ x _ => isOtherName index x
  | .assign _ x _ => isOtherName index x
  | .assignElement _ _ _ _ _ => true
  | .branch _ _ yes no => yes.keepsLoop index inner && no.keepsLoop index inner
  | .whileLoop _ _ body => body.keepsLoop index true
  | .countLoop _ x _ body => isOtherName index x && body.keepsLoop index true
  | .leave _ => inner
  | .giveBack _ _ => false
  | .define _ _ _ _ => true
  | .perform _ _ _ => true

/-- Whether statements in sequence leave the loop around them and its index alone. -/
def Stmt.allKeepLoop (index : Bytes) (inner : Bool) : List (Stmt Cell) → Bool
  | [] => true
  | s :: ss => s.keepsLoop index inner && Stmt.allKeepLoop index inner ss

end

/-- Whether the body of a loop leaves the loop and its index alone, and the name of the index is not
one that a hidden variable may have. -/
def CountLoop.isKept (l : CountLoop) : Bool :=
  isPlainName l.index && l.body.keepsLoop l.index false

/-! ## Where loops stand -/

/-- Where the code of a counting loop stands in a program. -/
structure CountLoop.Code (l : CountLoop) (L : Layout) where
  /-- The place where the function begins that the loop is in. -/
  entry : Nat
  /-- The variables of the function. -/
  vars : List Bytes
  /-- The slots of the hidden indices of the loops around it. -/
  hidden : List Nat
  /-- The slot of the index. -/
  slot : Nat
  /-- The place where the loop begins, by storing zero into the index. The index is compared with
  the count two places behind. -/
  start : Nat
  /-- The place of the comparison. The body begins two places behind. -/
  less : Nat
  /-- The place where the body ends and the index is counted on. The loop ends five places
  behind. -/
  back : Nat
  frame : L.Has entry .frame vars.length
  inside : L.Inside entry start (back + 5)
  index : IndexAt vars hidden l.index slot
  zero : L.Pushes start (some (.integer 0))
  store : L.Has (start + 1) .store slot
  load : L.Has (start + 2) .load slot
  count : l.count.At L vars (start + 3) less
  comparison : L.Has less .lt 0
  test : L.Has (less + 1) .jumpUnless (back + 5)
  body : l.body.At L vars (some (back + 5)) (hiddenWith hidden l.index slot) (less + 2) back
  loadAgain : L.Has back .load slot
  one : L.Pushes (back + 1) (some (.integer 1))
  add : L.Has (back + 2) .add 0
  storeAgain : L.Has (back + 3) .store slot
  jump : L.Has (back + 4) .jump (start + 2)

section

variable {L : Layout} {l : CountLoop}

mutual

/-- Every counting loop in a statement that has code has code. -/
theorem Stmt.At.loop_code {s : Stmt Cell} {vars : List Bytes} {stop : Option Nat}
    {hidden : List Nat} {e a b : Nat} (h : s.At L vars stop hidden a b) (hin : L.Inside e a b)
    (hframe : L.Has e .frame vars.length) (hl : l ∈ s.countLoops) : Nonempty (l.Code L) := by
  match s with
  | .absent | .declare .. | .assign .. | .assignElement .. | .giveBack .. | .perform .. =>
    cases hl
  | .block _ body =>
    have h : Stmt.AllAt L body vars stop hidden a b := h
    exact h.loop_code hin hframe hl
  | .branch _ cond yes no =>
    obtain ⟨m, n, hc, hj, hy, hj', hn⟩ := h
    have hn' := hn.le
    have hm : L.Nested a (m + 1) := hc.plain.nested.append (hj.nested (by decide))
    have hno : L.Nested a (n + 1) := (hm.append hy.nested).append (hj'.nested (by decide))
    rcases List.mem_append.mp hl with hl | hl
    · exact hy.loop_code (hin.sub hm (by omega)) hframe hl
    · exact hn.loop_code (hin.sub hno (Nat.le_refl b)) hframe hl
  | .whileLoop _ cond body =>
    obtain ⟨m, n, hc, hj, hbo, hj', rfl⟩ := h
    have hm : L.Nested a (m + 1) := hc.plain.nested.append (hj.nested (by decide))
    exact hbo.loop_code (hin.sub hm (by omega)) hframe hl
  | .countLoop _ index count body =>
    obtain ⟨k, m, n, hk, hzero, hstore, hload, hc, hless, hj, hbo, hload', hone, hadd, hstore', hj',
      rfl⟩ := h
    rcases List.mem_cons.mp hl with rfl | hl
    · exact ⟨{ entry := e, vars := vars, hidden := hidden, slot := k, start := a, less := m,
               back := n, frame := hframe, inside := hin, index := hk, zero := hzero,
               store := hstore, load := hload, count := hc, comparison := hless, test := hj,
               body := hbo, loadAgain := hload', one := hone, add := hadd, storeAgain := hstore',
               jump := hj' }⟩
    · have hhead := Layout.Plain.comparison hzero hstore hload hc hless
      have hm : L.Nested a (m + 2) := hhead.nested.append (hj.nested (by decide))
      exact hbo.loop_code (hin.sub hm (by omega)) hframe hl
  | .leave _ => cases hl
  | .define _ name params body =>
    obtain ⟨vars', m, hi, -, hprologue, hbo, hfalse⟩ := h
    have hm : b = m + 2 := hfalse.2.2
    -- From here on the innermost function is the declared one, which begins behind the jump.
    have hinner := Layout.Inside.start hprologue.isEntry
    rw [hi.functionEnd] at hinner
    exact hbo.loop_code (hinner.sub hprologue.plain.nested (by omega)) hprologue.2.2.1 hl

/-- Every counting loop in statements that have code has code. -/
theorem Stmt.AllAt.loop_code {ss : List (Stmt Cell)} {vars : List Bytes} {stop : Option Nat}
    {hidden : List Nat} {e a b : Nat} (h : Stmt.AllAt L ss vars stop hidden a b)
    (hin : L.Inside e a b) (hframe : L.Has e .frame vars.length)
    (hl : l ∈ Stmt.allCountLoops ss) : Nonempty (l.Code L) := by
  match ss with
  | [] => cases hl
  | s :: ss =>
    obtain ⟨m, hs, hrest⟩ := h
    rcases List.mem_append.mp hl with hl | hl
    · exact hs.loop_code (hin.sub .empty hrest.le) hframe hl
    · exact hrest.loop_code (hin.sub hs.nested (Nat.le_refl b)) hframe hl

end

/-- Every counting loop of a compiled program has code. -/
theorem Compiled.loop_code {t : Tree Cell} {imports : List Import} (h : Compiled t imports L)
    (hl : l ∈ t.countLoops) : Nonempty (l.Code L) := by
  obtain ⟨vars, m, hprologue, hbody, hfalse⟩ := h.program
  have hm : L.program.code.size = m + 2 := hfalse.2.2
  have hin : L.Inside 0 1 L.program.code.size := Layout.Inside.start hprologue.isEntry
  exact hbody.loop_code (hin.sub .empty (by omega)) hprologue.2.2.1 hl

end

/-! ## Code that is left at its end only -/

/-- An instruction neither returns nor stores into a slot, and jumps only to places from `low` to
`high`. -/
structure Instruction.KeepsTo (i : Instruction) (slot low high : Nat) : Prop where
  ret : i.op ≠ .ret
  store : i.op = .store → i.operand.toNat ≠ slot
  branch : i.op.isBranch = true → low ≤ i.operand.toNat ∧ i.operand.toNat ≤ high

namespace Layout

/-- All instructions between two places that are code of the function that begins at `e` neither
return nor store into a slot, and jump only to places from `low` to `high`. -/
abbrev KeepsTo (L : Layout) (e slot low high a b : Nat) : Prop :=
  L.Each (fun q i => L.program.CodeOf e q → i.KeepsTo slot low high) a b

/-- Code in the function that begins at `e` is left at its end only, and does not store into a
slot. -/
structure Encloses (L : Layout) (e slot low high : Nat) : Prop where
  lt : high < L.program.functionEnd e
  keeps : L.KeepsTo e slot low high low high

variable {L : Layout} {a b m n e slot low high : Nat}

/-- Code that computes keeps to its place. -/
theorem Each.keepsTo (h : L.Each (fun _ => L.Computes) a b) : L.KeepsTo e slot low high a b := by
  refine h.imp fun _ i hcomputes _ => ?_
  refine ⟨hcomputes.ret, fun hop => absurd hop hcomputes.store, fun hop => ?_⟩
  rw [hcomputes.branch] at hop
  cases hop

/-- A store into another slot keeps to its place. -/
theorem Has.keepsTo_store (h : L.Has a .store n) (hn : n ≠ slot) :
    L.KeepsTo e slot low high a (a + 1) := by
  refine h.each ?_
  rintro o hop rfl -
  refine ⟨by rw [hop]; decide, fun _ => hn, fun hbranch => ?_⟩
  rw [hop] at hbranch
  cases hbranch

/-- A jump to one of the places keeps to them. -/
theorem Has.keepsTo_branch {op : Opcode} (h : L.Has a op n) (hop : op.isBranch = true)
    (hlow : low ≤ n) (hhigh : n ≤ high) : L.KeepsTo e slot low high a (a + 1) := by
  refine h.each ?_
  rintro o rfl rfl -
  refine ⟨?_, ?_, fun _ => ⟨hlow, hhigh⟩⟩
  · intro hret
    rw [hret] at hop
    cases hop
  · intro hstore
    rw [hstore] at hop
    cases hop

/-- The code of a function that is declared behind the beginning of another one is not code of
that. -/
theorem Has.keepsTo_define (h : L.Has a .jump b) (hentry : L.program.IsEntry (a + 1))
    (hb : a + 1 ≤ b) (he : e ≤ a) : L.KeepsTo e slot low high (a + 1) b := by
  refine ⟨hb, fun q i ha hb _ hcode => ?_⟩
  have hspans : L.program.Spans (a + 1) q := ⟨hentry, ha, by rwa [h.functionEnd]⟩
  exact absurd (hcode.2 _ hspans) (by omega)

end Layout

/-! ## The slot of an index -/

/-- A slot is that of the index of a loop around a statement: it has the name of the index or, if
there is none, a hidden one, and is one of the `hidden` slots. -/
structure Reserves (vars : List Bytes) (hidden : List Nat) (index : Bytes) (slot : Nat) : Prop where
  named : index.isEmpty = false → isPlainName index = true ∧ vars[slot]? = some index
  unnamed : index.isEmpty = true →
    slot ∈ hidden ∧ ∃ x, isPlainName x = false ∧ vars[slot]? = some x

section

variable {vars : List Bytes} {hidden : List Nat} {index x : Bytes} {slot k : Nat}

/-- The slot of an index is reserved in the body of its loop. -/
theorem IndexAt.reserves (h : IndexAt vars hidden index slot) (hindex : isPlainName index = true) :
    Reserves vars (hiddenWith hidden index slot) index slot := by
  unfold IndexAt at h
  unfold hiddenWith
  cases hempty : index.isEmpty with
  | true =>
    rw [hempty, if_pos rfl] at h
    obtain ⟨⟨n, hn⟩, -⟩ := h
    rw [if_pos rfl]
    refine ⟨fun hne => absurd hne (by rw [hempty]; decide), fun _ => ⟨List.mem_cons_self, ?_⟩⟩
    exact ⟨hiddenName n, isPlainName_hiddenName n, slotOf_eq_some hn⟩
  | false =>
    rw [hempty, if_neg (by decide)] at h
    refine ⟨fun _ => ⟨hindex, slotOf_eq_some h⟩, fun hempty' => ?_⟩
    rw [hempty] at hempty'
    cases hempty'

/-- Slots of hidden indices in between do not matter. -/
theorem Reserves.hiddenWith (h : Reserves vars hidden index slot) (x : Bytes) (k : Nat) :
    Reserves vars (hiddenWith hidden x k) index slot := by
  refine ⟨h.named, fun hempty => ⟨?_, (h.unnamed hempty).2⟩⟩
  unfold StackScript.hiddenWith
  split
  · exact List.mem_cons_of_mem k (h.unnamed hempty).1
  · exact (h.unnamed hempty).1

/-- Another variable has another slot. -/
theorem Reserves.ne_of_isOtherName (h : Reserves vars hidden index slot)
    (hx : isOtherName index x = true) (hk : vars[k]? = some x) : k ≠ slot := by
  rintro rfl
  rw [isOtherName, Bool.and_eq_true] at hx
  obtain ⟨hplain, hother⟩ := hx
  cases hempty : index.isEmpty with
  | true =>
    obtain ⟨-, y, hhidden, hy⟩ := h.unnamed hempty
    cases hk.symm.trans hy
    rw [hplain] at hhidden
    cases hhidden
  | false =>
    cases hk.symm.trans (h.named hempty).2
    rw [hempty] at hother
    simp at hother

/-- The index of a loop in the body has another slot, if it has another name or none. -/
theorem Reserves.ne_of_indexAt (h : Reserves vars hidden index slot)
    (hx : isOtherName index x = true) (hk : IndexAt vars hidden x k) : k ≠ slot := by
  unfold IndexAt at hk
  split at hk
  · rintro rfl
    obtain ⟨⟨n, hn⟩, hnot⟩ := hk
    cases hempty : index.isEmpty with
    | true => exact hnot (h.unnamed hempty).1
    | false =>
      obtain ⟨hplain, hname⟩ := h.named hempty
      cases (slotOf_eq_some hn).symm.trans hname
      rw [isPlainName_hiddenName] at hplain
      cases hplain
  · exact h.ne_of_isOtherName hx (slotOf_eq_some hk)

end

/-! ## The body of a loop -/

section

variable {L : Layout} {vars : List Bytes} {index : Bytes} {e slot low high : Nat}

mutual

/-- The code of a statement that leaves a loop around it and its index alone. A `leave` in it goes
to the end of a loop in between. -/
theorem Stmt.At.keepsTo {s : Stmt Cell} {stop : Option Nat} {hidden : List Nat} {inner : Bool}
    {a b : Nat} (h : s.At L vars stop hidden a b) (hkeeps : s.keepsLoop index inner = true)
    (hslot : Reserves vars hidden index slot)
    (hstop : inner = true → ∀ q, stop = some q → low ≤ q ∧ q ≤ high) (he : e < low) (hlow : low ≤ a)
    (hhigh : b ≤ high) : L.KeepsTo e slot low high a b := by
  match s with
  | .absent =>
    obtain rfl := h
    exact Layout.Each.empty.keepsTo
  | .block _ body =>
    have h : Stmt.AllAt L body vars stop hidden a b := h
    exact h.keepsTo hkeeps hslot hstop he hlow hhigh
  | .declare _ x value =>
    obtain ⟨m, k, hv, hk, -, hi, rfl⟩ := h
    exact hv.computes.keepsTo.append (hi.keepsTo_store (hslot.ne_of_isOtherName hkeeps hk))
  | .assign _ x value =>
    obtain ⟨m, k, hv, hk, hi, rfl⟩ := h
    have hne := hslot.ne_of_isOtherName hkeeps (slotOf_eq_some hk)
    exact hv.computes.keepsTo.append (hi.keepsTo_store hne)
  | .assignElement _ x row col value =>
    obtain ⟨l, m, n, k, hr, hc, hv, -, hi, rfl⟩ := h
    exact ((hr.computes.append (hc.computes.append hv.computes)).append
      (hi.computes (by decide))).keepsTo
  | .branch _ cond yes no =>
    obtain ⟨m, n, hc, hj, hy, hj', hn⟩ := h
    have hc' := hc.le
    have hy' := hy.le
    have hn' := hn.le
    rw [Stmt.keepsLoop, Bool.and_eq_true] at hkeeps
    have htest : L.KeepsTo e slot low high a (m + 1) :=
      hc.computes.keepsTo.append (hj.keepsTo_branch rfl (by omega) (by omega))
    have hskip : L.KeepsTo e slot low high n (n + 1) := hj'.keepsTo_branch rfl (by omega) hhigh
    exact (htest.append (hy.keepsTo hkeeps.1 hslot hstop he (by omega) (by omega))).append
      (hskip.append (hn.keepsTo hkeeps.2 hslot hstop he (by omega) hhigh))
  | .whileLoop _ cond body =>
    obtain ⟨m, n, hc, hj, hbo, hj', rfl⟩ := h
    have hc' := hc.le
    have hbo' := hbo.le
    have htest : L.KeepsTo e slot low high a (m + 1) :=
      hc.computes.keepsTo.append (hj.keepsTo_branch rfl (by omega) hhigh)
    -- From here on a `leave` goes behind this loop, which ends inside of the one around it.
    have hbody := hbo.keepsTo hkeeps hslot (by rintro - q ⟨⟩; omega) he (by omega) (by omega)
    exact (htest.append hbody).append (hj'.keepsTo_branch rfl hlow (by omega))
  | .countLoop _ x count body =>
    obtain ⟨k, m, n, hk, hzero, hstore, hload, hc, hless, hj, hbo, hload', hone, hadd, hstore', hj',
      rfl⟩ := h
    have hc' := hc.le
    have hbo' := hbo.le
    rw [Stmt.keepsLoop, Bool.and_eq_true] at hkeeps
    -- This loop stores to its own index twice, and neither store hits the index of the one around
    -- it.
    have hne := hslot.ne_of_indexAt hkeeps.1 hk
    have hfirst : L.KeepsTo e slot low high a (a + 2) :=
      hzero.computes.keepsTo.append (hstore.keepsTo_store hne)
    have hcompare : L.Each (fun _ => L.Computes) (a + 2) (m + 1) :=
      (hload.computes (by decide)).append (hc.computes.append (hless.computes (by decide)))
    have htest : L.KeepsTo e slot low high (m + 1) (m + 2) := hj.keepsTo_branch rfl (by omega) hhigh
    have hbody := hbo.keepsTo hkeeps.2 (hslot.hiddenWith x k) (by rintro - q ⟨⟩; omega) he
      (by omega) (by omega)
    have hsum : L.Each (fun _ => L.Computes) n (n + 3) :=
      (hload'.computes (by decide)).append (hone.computes.append (hadd.computes (by decide)))
    have hback : L.KeepsTo e slot low high (n + 4) (n + 5) :=
      hj'.keepsTo_branch rfl (by omega) (by omega)
    exact ((hfirst.append hcompare.keepsTo).append htest).append (hbody.append
      (hsum.keepsTo.append ((hstore'.keepsTo_store hne).append hback)))
  | .leave _ =>
    obtain ⟨q, hq, hi, rfl⟩ := h
    obtain ⟨hlow', hhigh'⟩ := hstop hkeeps q hq
    exact hi.keepsTo_branch rfl hlow' hhigh'
  | .giveBack _ value => cases hkeeps
  | .define _ name params body =>
    obtain ⟨vars', m, hi, -, hprologue, hbo, hfalse⟩ := h
    have hbo' := hbo.le
    have hm : b = m + 2 := hfalse.2.2
    have hskip : L.KeepsTo e slot low high a (a + 1) := hi.keepsTo_branch rfl (by omega) hhigh
    -- The code of the function belongs to another activation, so nothing is asked of it.
    exact hskip.append (hi.keepsTo_define hprologue.isEntry (by omega) (by omega))
  | .perform _ name args =>
    obtain ⟨m, n, ha, hcall, hi, rfl⟩ := h
    exact ((ha.computes.append hcall.computes).append (hi.computes (by decide))).keepsTo

/-- The code of statements in sequence that leave a loop around them and its index alone. -/
theorem Stmt.AllAt.keepsTo {ss : List (Stmt Cell)} {stop : Option Nat} {hidden : List Nat}
    {inner : Bool} {a b : Nat} (h : Stmt.AllAt L ss vars stop hidden a b)
    (hkeeps : Stmt.allKeepLoop index inner ss = true) (hslot : Reserves vars hidden index slot)
    (hstop : inner = true → ∀ q, stop = some q → low ≤ q ∧ q ≤ high) (he : e < low) (hlow : low ≤ a)
    (hhigh : b ≤ high) : L.KeepsTo e slot low high a b := by
  match ss with
  | [] =>
    obtain rfl := h
    exact Layout.Each.empty.keepsTo
  | s :: ss =>
    obtain ⟨m, hs, hrest⟩ := h
    have hs' := hs.le
    have hrest' := hrest.le
    rw [Stmt.allKeepLoop, Bool.and_eq_true] at hkeeps
    exact (hs.keepsTo hkeeps.1 hslot hstop he hlow (by omega)).append
      (hrest.keepsTo hkeeps.2 hslot hstop he (by omega) hhigh)

end

end

namespace CountLoop.Code

variable {L : Layout} {l : CountLoop} (c : l.Code L)
include c

/-- The count is evaluated, and then compared. -/
theorem encloses_count : L.Encloses c.entry c.slot (c.start + 3) c.less where
  lt := by
    have := c.body.le
    have := c.inside.le
    omega
  keeps := c.count.computes.keepsTo

/-- The code of the body is left at its end only, and leaves the index alone. -/
theorem encloses_body (h : l.isKept = true) :
    L.Encloses c.entry c.slot (c.less + 2) c.back where
  lt := by
    have := c.inside.le
    omega
  keeps := by
    rw [isKept, Bool.and_eq_true] at h
    have hlt := c.inside.lt
    have hle := c.count.le
    exact c.body.keepsTo h.2 (c.index.reserves h.1) (fun h => by cases h) (by omega)
      (Nat.le_refl _) (Nat.le_refl _)

/-- The code up to the comparison is straight but for the store into the index, and no function
begins there. -/
theorem plain_head : L.Plain c.start (c.less + 1) :=
  .comparison c.zero c.store c.load c.count c.comparison

/-- The places up to the comparison are code of the function of the loop. -/
theorem codeOf_head {q : Nat} (hstart : c.start ≤ q) (hless : q ≤ c.less) :
    L.program.CodeOf c.entry q := by
  have hbody := c.body.le
  have hplain : L.Plain c.start q :=
    ⟨hstart, fun i o ha hb => c.plain_head.all i o ha (by omega)⟩
  exact c.inside.codeOf hplain.nested (by omega) (c.plain_head.not_isEntry hstart (by omega))

/-- The functions declared in a loop up to the end of its body end there. -/
theorem nested_test : L.Nested c.start (c.less + 2) :=
  c.plain_head.nested.append (c.test.nested (by decide))

/-- The end of the body is code of the function of the loop. -/
theorem codeOf_back : L.program.CodeOf c.entry c.back :=
  c.inside.codeOf (c.nested_test.append c.body.nested) (by omega)
    (c.loadAgain.not_isEntry (by decide))

/-- The beginning of the body is code of the function of the loop. -/
theorem codeOf_body : L.program.CodeOf c.entry (c.less + 2) := by
  have hin : L.Inside c.entry (c.less + 2) (c.back + 5) :=
    c.inside.sub c.nested_test (Nat.le_refl _)
  have hin' : L.Inside c.entry (c.less + 2) c.back := hin.sub .empty (by omega)
  exact hin'.codeOf_start c.body.nested c.codeOf_back

end CountLoop.Code

end StackScript
