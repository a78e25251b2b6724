import StackScript.Proofs.Link.Places
import StackScript.Proofs.Link.Symbolic

/-!
# Linking keeps the meaning of code

A stream that only marks places by its labels, each once, does the same before and after linking.
The calls are linked first: the symbolic machine runs what they become step by step as it ran the
stream (`matched_calls`). Then the labels are linked: a program runs what is left as the symbolic
machine ran the markers and what stands between them (`matched_labels`).
-/

namespace StackScript

open Exec Machine

variable {l : Bytes} {x y : Exec Unit} {i j o : Instruction} {code : List Instruction} {k m n : Nat}
  {g : Signature}

variable {f : Nat → Nat} {a b : Nat} {hosts : Array HostFunction}

/-! ## Going to corresponding places -/

/-- The second state is the first one at the place that `f` gives for its place. -/
def Arrived (f : Nat → Nat) (s t : State) : Prop := t = s.moved f (f s.place)

/-- Two computations at the places `a` and `b` that go to corresponding places. -/
def GoTogether (f : Nat → Nat) (a b : Nat) (x y : Exec Unit) : Prop :=
  Relates (MovedAt f a b) (fun _ s _ t => Arrived f s t) (Moved f) x y

namespace GoTogether

/-- Both go on to the next instruction. -/
theorem of_movesOn (h : MovesOn 1 x) (hb : f (a + 1) = b + 1) : GoTogether f a b x x := by
  refine (h f a b).imp (fun _ _ h => h) ?_
  rintro _ s _ t ⟨-, hs, ht⟩
  unfold Arrived
  rw [hs, hb, ht]

/-- Both return to the latest caller. -/
theorem ret : GoTogether f a b Exec.ret Exec.ret := by
  rintro ⟨place, stack, frame, callers, world⟩ t ⟨rfl, rfl⟩
  cases callers with
  | nil => exact ⟨rfl, b, rfl⟩
  | cons caller callers => exact rfl

/-- Both look at the top of the stack and then go elsewhere or on. -/
theorem branch {x y : Exec Unit} (h : GoTogether f a b x y) (hb : f (a + 1) = b + 1)
    (taken : Bool) : GoTogether f a b (branch taken x) (branch taken y) := by
  refine MovesOn.pop.then_relates fun c => (MovesOn.value c).then_relates fun v => ?_
  exact .ite _ (fun _ => h) fun _ => of_movesOn .next hb

/-- Both leave the place behind them for the return and go elsewhere. -/
theorem remember {x y : Exec Unit} (h : GoTogether f a b x y) (hb : f (a + 1) = b + 1) :
    GoTogether f a b (do remember; x) (do remember; y) := by
  have hcallers : Relates (MovedAt f a b) (fun _ s _ t => MovedAt f a b s t) (Moved f)
      Exec.remember Exec.remember := by
    refine .modify ?_
    rintro s t ⟨rfl, rfl⟩
    refine ⟨rfl, ?_⟩
    simp only [State.moved, List.map_cons, Caller.moved, hb]
  exact hcallers.bind fun _ _ => h

/-- Both go to the marker of a label. -/
theorem goTo {code code' : List Instruction} {l : Bytes}
    (h : code'.findIdx? (Instruction.marksLabel l) =
      (code.findIdx? (Instruction.marksLabel l)).map f) :
    GoTogether f a b (goTo code l) (goTo code' l) := by
  unfold Exec.goTo
  rw [h]
  cases code.findIdx? (Instruction.marksLabel l) with
  | none => exact .throw _ MovedAt.moved
  | some k =>
    refine .modify ?_
    rintro s t ⟨rfl, rfl⟩
    rfl

/-- One goes to the marker of a label, the other to its place. -/
theorem jump {code : List Instruction} {l : Bytes} {k : Nat} {p : Program} {operand : UInt64}
    (hk : code.findIdx? (Instruction.marksLabel l) = some k) (hoperand : operand.toNat = f k)
    (hlt : f k < p.code.size) : GoTogether f a b (Exec.goTo code l) (jump p operand) := by
  unfold Exec.goTo Exec.jump
  rw [hk, hoperand, if_pos hlt]
  refine .modify ?_
  rintro s t ⟨rfl, rfl⟩
  rfl

/-- Going together gives machines that remember a number nothing to remember. -/
theorem andReturn (h : GoTogether f a b x y) :
    Relates (MovedAt f a b) (fun k s k' t => k = 0 ∧ k' = 0 ∧ Arrived f s t) (Moved f)
      (do x; return 0) (do y; return 0) :=
  h.bind fun _ _ => .pure fun _ _ hst => ⟨rfl, rfl, hst⟩

/-- The same if only the first machine remembers a number. -/
theorem andReturnLeft (h : GoTogether f a b x y) :
    Relates (MovedAt f a b) (fun k s _ t => k = 0 ∧ Arrived f s t) (Moved f)
      (do x; return 0) y := by
  rw [← bind_pure y]
  exact h.bind fun _ _ => .pure fun _ _ hst => ⟨rfl, hst⟩

end GoTogether

/-- Instructions that do corresponding things in two machines match. -/
theorem Matched.of_relates {α β : Type} {m : Machine α} {m' : Machine β}
    {rel : State × α → State × β → Prop} {rank : Nat → Nat} {pre : State → State → Prop}
    {post : α → State → β → State → Prop} {s t : State} {k : α} {k' : β}
    (hi : m.code[s.place]? = some i) (hj : m'.code[t.place]? = some j)
    (hnoop : i.op = .noop ↔ j.op = .noop)
    (h : Relates pre post (Moved f) (m.exec i k) (m'.exec j k')) (hpre : pre s t)
    (hpost : ∀ a s b t, post a s b t → rel (s, a) (t, b) ∧ Moved f s t) :
    Matched m m' rel rank (s, k) (t, k') := by
  have hsame (s t : State) (hst : Moved f s t) : s.observation = t.observation := by
    obtain ⟨b, rfl⟩ := hst
    exact (State.moved_observation f b s).symm
  refine .both hi hj hnoop ((h s t hpre).imp ?_ hsame)
  intro a s b t hst
  obtain ⟨hrel, hmoved⟩ := hpost a s b t hst
  exact ⟨hrel, hsame s t hmoved⟩

/-! ## Labels of code -/

/-- A label that occurs once has one place. -/
theorem eq_of_label (hnodup : (labelsOf code).Nodup) {x y : Instruction} (hx : code[m]? = some x)
    (hy : code[n]? = some y) (hl : x.label ≠ []) (he : y.label = x.label) : m = n := by
  induction code generalizing m n with
  | nil => cases hx
  | cons i rest ih =>
    have hrest : (labelsOf rest).Nodup := by
      by_cases hi : i.label = []
      · rwa [labelsOf_cons_of_empty hi] at hnodup
      · rw [labelsOf_cons_of_label hi] at hnodup
        exact (List.nodup_cons.mp hnodup).2
    -- The label of the first instruction does not occur again.
    have hfirst {k : Nat} {z : Instruction} (hz : rest[k]? = some z) (hi : i.label ≠ []) :
        z.label ≠ i.label := by
      intro hzi
      rw [labelsOf_cons_of_label hi] at hnodup
      exact (List.nodup_cons.mp hnodup).1
        (mem_labelsOf.mpr ⟨hi, z, List.mem_of_getElem? hz, hzi⟩)
    cases m with
    | zero =>
      cases n with
      | zero => rfl
      | succ n =>
        cases hx
        exact absurd he (hfirst hy hl)
    | succ m =>
      cases n with
      | zero =>
        cases hy
        exact absurd he.symm (hfirst hx (he ▸ hl))
      | succ n => rw [ih hrest hx hy]

/-- An instruction marks the label it has if it does nothing. -/
theorem Instruction.marksLabel_iff :
    i.marksLabel l = true ↔ i.op = .noop ∧ i.label = l ∧ l ≠ [] := by
  unfold marksLabel isMarker
  simp only [Bool.and_eq_true, beq_iff_eq, Bool.not_eq_true', List.isEmpty_eq_false_iff]
  constructor
  · rintro ⟨⟨hop, hne⟩, rfl⟩
    exact ⟨hop, rfl, hne⟩
  · rintro ⟨hop, rfl, hne⟩
    exact ⟨⟨hop, hne⟩, rfl⟩

/-- Where only markers have labels, a label is found if it occurs. -/
theorem findIdx?_marksLabel (hmarks : ∀ i ∈ code, i.label ≠ [] → i.op = .noop)
    (hl : l ∈ labelsOf code) :
    ∃ k y, code.findIdx? (Instruction.marksLabel l) = some k ∧ code[k]? = some y ∧
      y.op = .noop ∧ y.label = l ∧ l ≠ [] := by
  obtain ⟨hne, i, hi, rfl⟩ := mem_labelsOf.mp hl
  cases hk : code.findIdx? (Instruction.marksLabel i.label) with
  | none =>
    have hnot := List.findIdx?_eq_none_iff.mp hk i hi
    rw [Instruction.marksLabel_iff.mpr ⟨hmarks i hi hne, rfl, hne⟩] at hnot
    cases hnot
  | some k =>
    obtain ⟨hlt, hmark, -⟩ := List.findIdx?_eq_some_iff_getElem.mp hk
    exact ⟨k, code[k], rfl, List.getElem?_eq_getElem hlt, Instruction.marksLabel_iff.mp hmark⟩

/-- A label that does not occur is not found. -/
theorem findIdx?_marksLabel_of_not_mem (hl : l ∉ labelsOf code) :
    code.findIdx? (Instruction.marksLabel l) = none := by
  rw [List.findIdx?_eq_none_iff]
  intro i hi
  rw [Bool.eq_false_iff]
  intro hmark
  obtain ⟨-, hlabel, hne⟩ := Instruction.marksLabel_iff.mp hmark
  exact hl (mem_labelsOf.mpr ⟨hne, i, hi, hlabel⟩)

/-- An instruction that does not jump does the same in programs with the same constants. -/
theorem step_congr {p q : Program} (hconstants : q.constants = p.constants) (hop : j.op = i.op)
    (hoperand : j.operand = i.operand) (hjump : i.op.isJump = false) :
    step q hosts j = step p hosts i := by
  unfold step
  rw [hop, hoperand, hconstants]
  cases hi : i.op with
  | jump | jumpIf | jumpUnless | call =>
    rw [hi] at hjump
    cases hjump
  | _ => rfl

/-! ## The instructions of the symbolic machine -/

namespace Compilation

/-- An instruction that does not jump does what it does in a program. -/
theorem symbolicPlain_of_not_jump (c : Compilation) (h : i.op.isJump = false) :
    c.symbolicPlain hosts i = step c.unlinked hosts i := by
  unfold symbolicPlain
  cases hi : i.op with
  | jump | jumpIf | jumpUnless => exact absurd (hi ▸ h) nofun
  | _ => rfl

/-- A return means a return. -/
theorem symbolicPlain_of_ret (c : Compilation) (h : i.op = .ret) :
    c.symbolicPlain hosts i = Exec.ret := by
  rw [symbolicPlain_of_not_jump c (by rw [h]; rfl)]
  unfold step
  rw [h]

/-- A host call runs the function that its operand names. -/
theorem symbolicPlain_of_callHost (c : Compilation) (h : i.op = .callHost) :
    c.symbolicPlain hosts i = (do
      callHostAt hosts (HostCall.unpack i.operand).index (HostCall.unpack i.operand).argc
      next) := by
  rw [symbolicPlain_of_not_jump c (by rw [h]; rfl)]
  unfold step
  rw [h]
  rfl

/-- What is no call means one instruction. -/
theorem symbolicStep_of_not_call (c : Compilation) (h : i.op ≠ .call) (n : Nat) :
    c.symbolicStep hosts i n = (do c.symbolicPlain hosts i; return 0) := if_neg h

/-- A call of a function of the host runs it. -/
theorem symbolicCall_of_host (c : Compilation) (hg : c.symbols.function? i.callee = some g)
    (hhost : g.isHost = true) (n : Nat) :
    c.symbolicCall hosts i n = (do
      (do callHostAt hosts g.dispatch i.argc.toNat; next)
      return 0) := by
  unfold symbolicCall
  rw [hg]
  simp only [hhost, if_true, bind_assoc]

/-- A call that misses more arguments than it has pushed pushes one. -/
theorem symbolicCall_of_missing (c : Compilation) (hg : c.symbols.function? i.callee = some g)
    (huser : g.isHost = false) (hn : n < (g.declared - i.argc).toNat) :
    c.symbolicCall hosts i n = (do push (some (.boolean false)); return n + 1) := by
  unfold symbolicCall
  rw [hg]
  simp only [huser, Bool.false_eq_true, if_false, if_pos hn]

/-- A call that misses no more arguments than it has pushed goes to its function. -/
theorem symbolicCall_of_complete (c : Compilation) (hg : c.symbols.function? i.callee = some g)
    (huser : g.isHost = false) (hn : (g.declared - i.argc).toNat ≤ n) :
    c.symbolicCall hosts i n = (do (do remember; goTo c.code.toList i.target) return 0) := by
  unfold symbolicCall
  rw [hg]
  simp only [huser, Bool.false_eq_true, if_false, if_neg (Nat.not_lt.mpr hn), bind_assoc]

end Compilation

/-! ## Linking calls -/

section Calls

/-- A compilation with other code. -/
def Compilation.withCode (c : Compilation) (code : List Instruction) : Compilation :=
  { c with code := code.toArray }

/-- The place of an instruction of a compilation when its calls are linked. -/
def Compilation.placed (c : Compilation) : Nat → Nat := callPlace c.symbols c.code.toList

/-- What is known of a stream whose calls are linked. -/
structure CallsLinked (c : Compilation) (code : List Instruction) : Prop where
  /-- The calls are linked. -/
  calls : linkCalls c.symbols c.code.toList = .ok code
  /-- Only markers have labels. -/
  marks : ∀ i ∈ c.code.toList, i.label ≠ [] → i.op = .noop
  /-- The labels are distinct. -/
  distinct : (labelsOf c.code.toList).Nodup
  /-- The numbers of arguments are not negative. -/
  argc : ∀ i ∈ c.code.toList, i.op = .call → 0 ≤ i.argc
  /-- The indices of functions fit into the operand of a host call. -/
  dispatch : ∀ g ∈ c.symbols.functions, g.dispatch < 0x400000
  /-- The first constant is false. -/
  falseFirst : c.pool.entries[Pool.falseIndex]? = some (some (.boolean false))

/-- How states match when calls are linked: the place is the one that the calls in front leave,
behind what the call at hand has pushed. -/
def CallsMatch (c : Compilation) (x y : State × Nat) : Prop :=
  y.2 = 0 ∧ y.1 = x.1.moved c.placed (c.placed x.1.place + x.2) ∧
    (x.2 = 0 ∨ ∃ i g, c.code.toList[x.1.place]? = some i ∧ i.op = .call ∧
      c.symbols.function? i.callee = some g ∧ g.isHost = false ∧
      x.2 ≤ (g.declared - i.argc).toNat)

variable {c : Compilation} {code : List Instruction}

namespace CallsLinked

/-- Linking calls moves the markers. -/
theorem findIdx? (h : CallsLinked c code) (l : Bytes) :
    code.findIdx? (Instruction.marksLabel l) =
      (c.code.toList.findIdx? (Instruction.marksLabel l)).map c.placed := by
  obtain ⟨hlabels, hnoop, -⟩ := linkCalls_labels h.calls h.marks
  by_cases hl : l ∈ labelsOf c.code.toList
  · obtain ⟨k, y, hk, hy, hop, hlabel, hne⟩ := findIdx?_marksLabel h.marks hl
    obtain ⟨k', y', hk', hy', -, hlabel', -⟩ := findIdx?_marksLabel hnoop (hlabels ▸ hl)
    -- The marker stands at its new place, and there is only one of its label.
    have hmoved : code[c.placed k]? = some y := by
      refine (linkCalls_at h.calls hy).2 0 y ?_
      rw [linkedHead_of_plain hy (by simp [hop]) (by simp [hop])]
      rfl
    have hsame := eq_of_label (hlabels ▸ h.distinct) hmoved hy' (hlabel ▸ hne)
      (hlabel'.trans hlabel.symm)
    rw [hk, hk', ← hsame]
    rfl
  · rw [findIdx?_marksLabel_of_not_mem hl, findIdx?_marksLabel_of_not_mem (hlabels ▸ hl)]
    rfl

/-- An instruction other than a call or a return does the same at its new place. -/
theorem goTogether_plain (h : CallsLinked c code) (hcall : i.op ≠ .call) (hret : i.op ≠ .ret)
    (hb : c.placed (a + 1) = b + 1) :
    GoTogether c.placed a b (c.symbolicPlain hosts i)
      ((c.withCode code).symbolicPlain hosts i) := by
  by_cases hjump : i.op.isJump = false
  · have hsame : step (c.withCode code).unlinked hosts i = step c.unlinked hosts i :=
      step_congr (p := c.unlinked) (q := (c.withCode code).unlinked) rfl rfl rfl hjump
    rw [Compilation.symbolicPlain_of_not_jump c hjump,
      Compilation.symbolicPlain_of_not_jump (c.withCode code) hjump, hsame]
    exact .of_movesOn (.step _ hosts hjump hret) hb
  · have hgo : GoTogether c.placed a b (goTo c.code.toList i.target)
        (goTo (c.withCode code).code.toList i.target) := .goTo (h.findIdx? i.target)
    unfold Compilation.symbolicPlain
    cases hi : i.op with
    | jump => exact hgo
    | jumpIf => exact hgo.branch hb true
    | jumpUnless => exact hgo.branch hb false
    | call => exact absurd hi hcall
    | _ =>
      rw [hi] at hjump
      exact absurd rfl hjump

/-- A call of a function of the host becomes a host call. -/
theorem goTogether_host (h : CallsLinked c code) (hosts : Array HostFunction)
    (hi : i ∈ c.code.toList) (hop : i.op = .call) (hg : c.symbols.function? i.callee = some g)
    (hmaximum : i.argc ≤ HostCall.maxArguments) (hb : c.placed (a + 1) = b + 1) :
    GoTogether c.placed a b (do callHostAt hosts g.dispatch i.argc.toNat; next)
      ((c.withCode code).symbolicPlain hosts
        { i with op := .callHost, operand := HostCall.pack i.argc g.dispatch, target := [] }) := by
  have hargc : ((i.argc.toNat : Nat) : Int) = i.argc := Int.toNat_of_nonneg (h.argc i hi hop)
  have hindex : g.dispatch % 0x400000 = g.dispatch :=
    Nat.mod_eq_of_lt (h.dispatch g (List.mem_of_find?_eq_some hg))
  have hunpack : HostCall.unpack (HostCall.pack i.argc g.dispatch) =
      ⟨i.argc.toNat, g.dispatch⟩ := by
    have hcall := HostCall.unpack_pack (k := i.argc.toNat) (by omega) g.dispatch
    rwa [hargc, hindex] at hcall
  rw [Compilation.symbolicPlain_of_callHost _ rfl, hunpack]
  exact .of_movesOn ((MovesOn.callHostAt hosts _ _).bind fun _ => .next) hb

/-- Pushing false is loading the first constant. -/
theorem relates_push (h : CallsLinked c code) (hosts : Array HostFunction) (n : Nat) :
    Relates (MovedAt f a b) (fun k s k' t => k = n ∧ k' = 0 ∧ MovedAt f a (b + 1) s t) (Moved f)
      (do push (some (.boolean false)); return n)
      ((c.withCode code).symbolicStep hosts loadFalse 0) := by
  have hplain : (c.withCode code).symbolicPlain hosts loadFalse =
      (do push (some (.boolean false)); next) := by
    have hconstant : (c.withCode code).unlinked.constants[loadFalse.operand.toNat]? =
        some (some (.boolean false)) := h.falseFirst
    have hop : loadFalse.op = .constant := rfl
    show step (c.withCode code).unlinked hosts loadFalse = _
    unfold step
    simp only [hop, hconstant]
  rw [Compilation.symbolicStep_of_not_call _ (by decide), hplain]
  rintro s t ⟨rfl, rfl⟩
  exact ⟨rfl, rfl, rfl, rfl⟩

variable {s : State} {i : Instruction}

/-- Instructions that go to corresponding places match. -/
theorem matched_of_goTogether (hi : c.code.toList[s.place]? = some i)
    (hj : code[c.placed s.place + k]? = some j) (hnoop : i.op = .noop ↔ j.op = .noop)
    (hx : c.symbolicStep hosts i k = (do x; return 0))
    (hy : (c.withCode code).symbolicStep hosts j 0 = (do y; return 0))
    (hgo : GoTogether c.placed s.place (c.placed s.place + k) x y) :
    Matched (c.machine hosts) ((c.withCode code).machine hosts) (CallsMatch c) (fun _ => 0) (s, k)
      (s.moved c.placed (c.placed s.place + k), 0) := by
  have hrelates := hgo.andReturn
  rw [← hx, ← hy] at hrelates
  refine Matched.of_relates (Array.getElem?_toList ▸ hi) ?_ hnoop hrelates ⟨rfl, rfl⟩ ?_
  · exact List.getElem?_toArray.trans hj
  · rintro _ s' _ t' ⟨rfl, rfl, rfl⟩
    exact ⟨⟨rfl, rfl, .inl rfl⟩, _, rfl⟩

/-- A call of a function of the program matches what it becomes: what is pushed for the arguments
that are missing, and the call. -/
theorem matched_user (h : CallsLinked c code) (hi : c.code.toList[s.place]? = some i)
    (hop : i.op = .call) (hg : c.symbols.function? i.callee = some g) (huser : g.isHost = false)
    (hhere : linkedHead c.symbols (c.code.toList.drop s.place) =
      List.replicate (g.declared - i.argc).toNat loadFalse ++ [{ i with argc := g.declared }])
    (hk : k ≤ (g.declared - i.argc).toNat) :
    Matched (c.machine hosts) ((c.withCode code).machine hosts) (CallsMatch c) (fun _ => 0) (s, k)
      (s.moved c.placed (c.placed s.place + k), 0) := by
  -- The call stands at the end of what it becomes, behind a load of false for each missing
  -- argument. The symbolic machine counts in `k` how many of them it has pushed.
  have hat {j : Nat} {x : Instruction} (hx : (List.replicate (g.declared - i.argc).toNat
      loadFalse ++ [{ i with argc := g.declared }])[j]? = some x) :
      code[c.placed s.place + j]? = some x := (linkCalls_at h.calls hi).2 j x (hhere ▸ hx)
  rcases Nat.lt_or_eq_of_le hk with hlt | rfl
  · -- One more false is pushed, which is what the code loads there.
    have hj : code[c.placed s.place + k]? = some loadFalse := by
      refine hat ?_
      rw [List.getElem?_append_left (by rwa [List.length_replicate]), List.getElem?_replicate,
        if_pos hlt]
    have hrelates := h.relates_push (f := c.placed) (a := s.place) (b := c.placed s.place + k)
      hosts (k + 1)
    rw [← c.symbolicCall_of_missing hg huser hlt] at hrelates
    have hstep : c.symbolicStep hosts i k = c.symbolicCall hosts i k := if_pos hop
    rw [← hstep] at hrelates
    refine Matched.of_relates (Array.getElem?_toList ▸ hi) (List.getElem?_toArray.trans hj) ?_
      hrelates ⟨rfl, rfl⟩ ?_
    · rw [hop]
      decide
    · rintro _ s' _ t' ⟨rfl, rfl, hs, rfl⟩
      refine ⟨⟨rfl, by rw [hs]; rfl, .inr ⟨i, g, ?_, hop, hg, huser, hlt⟩⟩, _, rfl⟩
      rw [hs]
      exact hi
  · -- Nothing is missing any more.
    have hj : code[c.placed s.place + (g.declared - i.argc).toNat]? =
        some { i with argc := g.declared } := by
      refine hat ?_
      rw [List.getElem?_append_right (by rw [List.length_replicate]), List.length_replicate,
        Nat.sub_self]
      rfl
    have hb : c.placed (s.place + 1) = c.placed s.place + (g.declared - i.argc).toNat + 1 := by
      unfold Compilation.placed
      rw [callPlace, hhere, List.length_append, List.length_replicate]
      rfl
    refine matched_of_goTogether hi hj (by simp [hop]) ?_ ?_
      ((GoTogether.goTo (h.findIdx? i.target)).remember hb)
    · rw [Compilation.symbolicStep, if_pos hop]
      exact c.symbolicCall_of_complete hg huser (Nat.le_refl _)
    · rw [Compilation.symbolicStep, if_pos hop]
      exact (c.withCode code).symbolicCall_of_complete (n := 0)
        (i := { i with argc := g.declared }) hg huser (by simp)

/-- The steps of the symbolic machine before and after calls are linked match. -/
theorem matched (h : CallsLinked c code) (hosts : Array HostFunction) (x y : State × Nat)
    (hxy : CallsMatch c x y) :
    Matched (c.machine hosts) ((c.withCode code).machine hosts) (CallsMatch c) (fun _ => 0) x y
    := by
  obtain ⟨s, k⟩ := x
  obtain ⟨t, k'⟩ := y
  obtain ⟨rfl : k' = 0, rfl : t = _, hk : k = 0 ∨ _⟩ := hxy
  -- Only a call of a function of the program pushes anything.
  have hzero (hother : ∀ i g, c.code.toList[s.place]? = some i → i.op = .call →
      c.symbols.function? i.callee = some g → g.isHost = true) : k = 0 := by
    rcases hk with hk | ⟨i, g, hi, hop, hg, huser, -⟩
    · exact hk
    · rw [hother i g hi hop hg] at huser
      cases huser
  cases hi : c.code.toList[s.place]? with
  | none =>
    obtain rfl := hzero fun i g hi' => by
      rw [hi] at hi'
      cases hi'
    exact .halted (Array.getElem?_toList ▸ hi)
      (List.getElem?_toArray.trans (linkCalls_end h.calls hi))
      (State.moved_observation ..).symm
  | some i =>
    by_cases hop : i.op = .call
    · obtain ⟨g, hg, -, hmaximum, ⟨hhost, hhere⟩ | ⟨huser, -, hhere⟩⟩ :=
        linkCall_eq_ok ((linkCalls_at h.calls hi).1 hop)
      · obtain rfl := hzero fun i' g' hi' _ hg' => by
          rw [hi] at hi'
          cases hi'
          rw [hg] at hg'
          cases hg'
          exact hhost
        have hj := (linkCalls_at h.calls hi).2 0 _ (by rw [hhere]; rfl)
        have hb : c.placed (s.place + 1) = c.placed s.place + 0 + 1 := by
          unfold Compilation.placed
          rw [callPlace, hhere]
          rfl
        refine matched_of_goTogether hi hj (by simp [hop]) ?_ ?_
          (h.goTogether_host hosts (List.mem_of_getElem? hi) hop hg hmaximum hb)
        · rw [Compilation.symbolicStep, if_pos hop]
          exact c.symbolicCall_of_host hg hhost 0
        · exact Compilation.symbolicStep_of_not_call _ (by simp) 0
      · refine h.matched_user hi hop hg huser hhere ?_
        rcases hk with rfl | ⟨i', g', hi', -, hg', -, hle⟩
        · exact Nat.zero_le _
        · rw [hi] at hi'
          cases hi'
          rw [hg] at hg'
          cases hg'
          exact hle
    · obtain rfl := hzero fun i' g' hi' hop' => by
        rw [hi] at hi'
        cases hi'
        exact absurd hop' hop
      by_cases hret : i.op = .ret
      · -- A return that is dropped has another one in its place.
        obtain ⟨j, hj, hjop⟩ := linkCalls_return h.calls hi hret
        refine matched_of_goTogether hi hj (by simp [hret, hjop])
          (Compilation.symbolicStep_of_not_call _ hop 0)
          (Compilation.symbolicStep_of_not_call _ (by simp [hjop]) 0) ?_
        rw [Compilation.symbolicPlain_of_ret _ hret, Compilation.symbolicPlain_of_ret _ hjop]
        exact .ret
      · have hhere : linkedHead c.symbols (c.code.toList.drop s.place) = [i] :=
          linkedHead_of_plain hi hop hret
        have hj := (linkCalls_at h.calls hi).2 0 i (by rw [hhere]; rfl)
        have hb : c.placed (s.place + 1) = c.placed s.place + 0 + 1 := by
          unfold Compilation.placed
          rw [callPlace, hhere]
          rfl
        exact matched_of_goTogether hi hj Iff.rfl (Compilation.symbolicStep_of_not_call _ hop 0)
          (Compilation.symbolicStep_of_not_call _ hop 0) (h.goTogether_plain hop hret hb)

end CallsLinked

end Calls

/-! ## Linking labels -/

section Labels

/-- The place of an instruction of a compilation when its labels are linked. -/
def Compilation.unmarked (c : Compilation) : Nat → Nat := markerPlace c.code.toList

/-- What is known of a stream with linked calls whose labels are linked. -/
structure LabelsLinked (c : Compilation) (p : Program) : Prop where
  /-- The labels are linked. -/
  labels : linkLabels c.code.toList = .ok p.code.toList
  /-- The constants are those of the compilation. -/
  constants : p.constants = c.pool.entries
  /-- Only markers have labels. -/
  marks : ∀ i ∈ c.code.toList, i.label ≠ [] → i.op = .noop
  /-- The labels are distinct. -/
  distinct : (labelsOf c.code.toList).Nodup
  /-- The calls are linked. -/
  full : ∀ i ∈ c.code.toList, i.op = .call → FullCall c.symbols i
  /-- The places fit into operands. -/
  size : p.code.size ≤ 0x10000000000000000

/-- How states match when labels are linked: the place is the one that is left. -/
def LabelsMatch (c : Compilation) (x : State × Nat) (y : State × Unit) : Prop :=
  x.2 = 0 ∧ Arrived c.unmarked x.1 y.1

variable {c : Compilation} {p : Program}

namespace LabelsLinked

variable {s : State} {i : Instruction}

/-- A jump or a call goes to the place of its label. -/
theorem goTogether_jump (h : LabelsLinked c p) (hi : c.code.toList[m]? = some i)
    (hjump : i.op.isJump = true) (ho : p.code.toList[c.unmarked m]? = some o) :
    GoTogether c.unmarked a b (goTo c.code.toList i.target) (jump p o.operand) := by
  obtain ⟨k, y, hk, hy, -, hlabel, -⟩ :=
    findIdx?_marksLabel h.marks (linkLabels_target h.labels hi hjump)
  obtain ⟨o', ho', -, hoperand, hlt⟩ := linkLabels_operand h.labels h.distinct hi hjump hy hlabel
  obtain rfl : o = o' := Option.some.inj (ho.symm.trans ho')
  rw [Array.length_toList] at hlt
  have hsize := h.size
  refine .jump hk ?_ hlt
  rw [hoperand, UInt64.toNat_ofNat', Nat.mod_eq_of_lt (Nat.lt_of_lt_of_le hlt hsize)]
  rfl

/-- An instruction of the stream and the one that is left of it go to corresponding places. -/
theorem goTogether (h : LabelsLinked c p) (hi : c.code.toList[m]? = some i)
    (ho : p.code.toList[c.unmarked m]? = some o) (hop : o.op = i.op)
    (hoperand : i.op.isJump = false → o.operand = i.operand)
    (hb : c.unmarked (m + 1) = c.unmarked m + 1) :
    ∃ x, c.symbolicStep hosts i 0 = (do x; return 0) ∧
      GoTogether c.unmarked m (c.unmarked m) x (step p hosts o) := by
  by_cases hjump : i.op.isJump = true
  · have hgo : GoTogether c.unmarked m (c.unmarked m) (goTo c.code.toList i.target)
        (jump p o.operand) := h.goTogether_jump hi hjump ho
    unfold step
    rw [hop]
    cases hkind : i.op with
    | call =>
      obtain ⟨g, hg, huser, hargc⟩ := h.full i (List.mem_of_getElem? hi) hkind
      refine ⟨do remember; goTo c.code.toList i.target, ?_, hgo.remember hb⟩
      rw [Compilation.symbolicStep, if_pos hkind]
      exact c.symbolicCall_of_complete hg huser (by simp [hargc])
    | jump =>
      refine ⟨_, c.symbolicStep_of_not_call (by simp [hkind]) 0, ?_⟩
      unfold Compilation.symbolicPlain
      rw [hkind]
      exact hgo
    | jumpIf =>
      refine ⟨_, c.symbolicStep_of_not_call (by simp [hkind]) 0, ?_⟩
      unfold Compilation.symbolicPlain
      rw [hkind]
      exact hgo.branch hb true
    | jumpUnless =>
      refine ⟨_, c.symbolicStep_of_not_call (by simp [hkind]) 0, ?_⟩
      unfold Compilation.symbolicPlain
      rw [hkind]
      -- The program asks the question the other way round.
      have hbranch : Exec.branch false (jump p o.operand) = (do
          let v ← value (← pop)
          if v.truth then next else jump p o.operand) := by
        unfold Exec.branch
        refine bind_congr fun v => bind_congr fun w => ?_
        cases w.truth <;> rfl
      exact hbranch ▸ hgo.branch hb false
    | _ =>
      rw [hkind] at hjump
      cases hjump
  · have hjump : i.op.isJump = false := by simpa using hjump
    have hcall : i.op ≠ .call := by
      intro hcall
      rw [hcall] at hjump
      cases hjump
    refine ⟨_, c.symbolicStep_of_not_call hcall 0, ?_⟩
    by_cases hret : i.op = .ret
    · have hstep : step p hosts o = Exec.ret := by
        unfold step
        rw [hop, hret]
      rw [Compilation.symbolicPlain_of_ret _ hret, hstep]
      exact .ret
    · rw [Compilation.symbolicPlain_of_not_jump c hjump,
        step_congr (p := c.unlinked) (q := p) h.constants hop (hoperand hjump) hjump]
      exact .of_movesOn (.step _ hosts hjump hret) hb

/-- The steps of the symbolic machine and those of the linked program match. -/
theorem matched (h : LabelsLinked c p) (hosts : Array HostFunction) (x : State × Nat)
    (y : State × Unit) (hxy : LabelsMatch c x y) :
    Matched (c.machine hosts) (p.machine hosts) (LabelsMatch c) (fun m => c.code.size - m) x y := by
  obtain ⟨s, k⟩ := x
  obtain ⟨t, u⟩ := y
  obtain ⟨rfl : k = 0, rfl : t = _⟩ := hxy
  cases hi : c.code.toList[s.place]? with
  | none =>
    refine .halted (Array.getElem?_toList ▸ hi) ?_ (State.moved_observation ..).symm
    -- The end of the stream is moved to the end of the program, so both halt.
    have hend : c.unmarked s.place = p.code.size := linkLabels_end h.labels hi
    exact Array.getElem?_eq_none (Nat.le_of_eq hend.symm)
  | some i =>
    have hsource : (c.machine hosts).code[s.place]? = some i := Array.getElem?_toList ▸ hi
    rcases linkLabels_at h.labels hi with ⟨hop, hlt, hplace⟩ | ⟨⟨o, ho, hop, hoperand⟩, hplace⟩
    · -- A marker that is dropped is passed over.
      have hexec : (c.machine hosts).exec i 0 s = .ok 0 { s with place := s.place + 1 } := by
        change c.symbolicStep hosts i 0 s = _
        rw [c.symbolicStep_of_not_call (by simp [hop]),
          c.symbolicPlain_of_not_jump (by rw [hop]; rfl)]
        unfold step
        rw [hop]
        rfl
      refine .skipped hsource hop hexec ⟨rfl, ?_⟩ ?_
      · have hsame : c.unmarked (s.place + 1) = c.unmarked s.place := hplace
        unfold Arrived
        rw [hsame]
        rfl
      · rw [Array.length_toList] at hlt
        change c.code.size - (s.place + 1) < c.code.size - s.place
        omega
    · obtain ⟨x, hx, hgo⟩ := h.goTogether hi ho hop hoperand hplace
      have hrelates := hgo.andReturnLeft
      rw [← hx] at hrelates
      refine Matched.of_relates hsource (Array.getElem?_toList ▸ ho) (by rw [hop]) hrelates
        ⟨rfl, rfl⟩ ?_
      rintro _ s' _ t' ⟨rfl, rfl⟩
      exact ⟨⟨rfl, rfl⟩, _, rfl⟩

end LabelsLinked

end Labels

/-! ## Linking -/

/-- The functions of a table have indices below their number. -/
def Symbols.Indexed (s : Symbols) : Prop := ∀ f ∈ s.functions, f.dispatch < s.functions.length

/-- The table without functions. -/
theorem Symbols.indexed_empty : Symbols.Indexed {} := fun _ hf => nomatch hf

/-- A definition gives the function the next index, or changes counts only. -/
theorem Symbols.Indexed.define {s : Symbols} (h : s.Indexed) (name : Bytes)
    (declared minimum : Int) : (s.define name declared minimum).Indexed := by
  intro f hf
  unfold Symbols.define at hf ⊢
  split at hf
  · rename_i hdefined
    rw [if_pos hdefined]
    rw [List.length_map]
    obtain ⟨g, hg, rfl⟩ := List.mem_map.mp hf
    split
    · exact h g hg
    · exact h g hg
  · rename_i hdefined
    rw [if_neg hdefined]
    rw [List.length_append, List.length_singleton]
    rcases List.mem_append.mp hf with hf | hf
    · exact Nat.lt_succ_of_lt (h f hf)
    · rw [List.mem_singleton.mp hf]
      exact Nat.lt_succ_self _

/-- Linking keeps the meaning of code. From the same world the symbolic machine on a stream and the
linked program on the machine show the same stacks, frames, global variables, arrays and output in
the same order, but for instructions that do nothing, and the ends of the symbolic machine are the
ends of runs of the program. -/
theorem link_keeps_meaning {c c' : Compilation} {p : Program} (hlink : c.link = .ok (p, c'))
    (hmarks : ∀ i ∈ c.code.toList, i.label ≠ [] → i.op = .noop)
    (hdistinct : (labelsOf c.code.toList).Nodup)
    (hargc : ∀ i ∈ c.code.toList, i.op = .call → 0 ≤ i.argc)
    (hindexed : c.symbols.Indexed) (htable : c.symbols.functions.length < 0x400000)
    (hfalse : c.pool.entries[Pool.falseIndex]? = some (some (.boolean false)))
    (hsize : p.code.size ≤ 0x10000000000000000) (hosts : Array HostFunction) (world : World) :
    SameTraces (c.machine hosts) (State.start c.code.size world, 0) (p.machine hosts)
        (State.start p.code.size world, ()) ∧
      ∀ e, (∃ n, ((c.machine hosts).trace n (State.start c.code.size world, 0)).2 = some e) ↔
        ∃ blocks, finish? (run p hosts blocks world) = some e := by
  obtain ⟨expanded, out, hcalls, hlabels, rfl⟩ := Compilation.link_eq_ok hlink
  have hcallsLinked : CallsLinked c expanded :=
    ⟨hcalls, hmarks, hdistinct, hargc, fun g hg => Nat.lt_trans (hindexed g hg) htable, hfalse⟩
  obtain ⟨hsame, hnoop, hfull⟩ := linkCalls_labels hcalls hmarks
  have hlabelsLinked : LabelsLinked (c.withCode expanded)
      { constants := c.pool.entries, code := out.toArray } :=
    ⟨hlabels, rfl, hnoop, hsame ▸ hdistinct, hfull, hsize⟩
  -- Between the passes the run starts with the place that the first pass gives the end.
  have hfirst : SameTraces (c.machine hosts) (State.start c.code.size world, 0)
      ((c.withCode expanded).machine hosts) ((State.start c.code.size world).moved c.placed 0, 0) :=
    sameTraces_of_matched (hcallsLinked.matched hosts) ⟨rfl, rfl, .inl rfl⟩
  have hend : (c.withCode expanded).unmarked (c.placed c.code.size) = out.length :=
    linkLabels_end hlabels (linkCalls_end hcalls (by simp))
  have hstart : Arrived (c.withCode expanded).unmarked
      ((State.start c.code.size world).moved c.placed 0) (State.start out.toArray.size world) := by
    have hzero : (c.withCode expanded).unmarked 0 = 0 := markerPlace_zero _
    simp only [Arrived, State.moved, State.start, List.map_cons, List.map_nil, Caller.moved, hend,
      hzero, List.size_toArray]
  have hboth := hfirst.trans (sameTraces_of_matched
    (d := (State.start out.toArray.size world, ())) (hlabelsLinked.matched hosts) ⟨rfl, hstart⟩)
  refine ⟨hboth, fun e => ?_⟩
  exact (hboth.ends e).trans (Program.trace_ends_iff world e)

/-- A stream in which a call passes too few arguments, a return follows another, markers follow each
other and one stands at the end. -/
def Compilation.mixed : Compilation where
  symbols := (({} : Symbols).define "输出" hostArity 0).define "f" 2 0
  code := #[{ op := .jump, target := "@main" }, { op := .noop, label := "<f>" },
    { op := .frame, operand := 2 }, { op := .store, operand := 0 }, { op := .store, operand := 1 },
    { op := .load, operand := 1 }, { op := .ret }, { op := .ret }, { op := .noop, label := "@a" },
    { op := .noop, label := "@main" }, { op := .noop }, { op := .frame },
    { op := .constant, operand := 1 },
    { op := .call, target := "<f>", callee := "f", argc := 1 },
    { op := .call, target := "<输出>", callee := "输出", argc := 1 },
    { op := .jumpIf, target := "@a" }, { op := .push }, { op := .noop, label := "@end" }]

/-- Linking keeps the meaning of such a stream. -/
theorem link_keeps_meaning_mixed : ∃ p c', Compilation.mixed.link = .ok (p, c') ∧
    ∀ hosts world,
      SameTraces (Compilation.mixed.machine hosts) (State.start 18 world, 0) (p.machine hosts)
          (State.start p.code.size world, ()) ∧
        ∀ e, (∃ n, ((Compilation.mixed.machine hosts).trace n (State.start 18 world, 0)).2 =
            some e) ↔ ∃ blocks, finish? (run p hosts blocks world) = some e := by
  have hsize : Compilation.mixed.link.toOption.any
      (fun r => decide (r.1.code.size ≤ 0x10000000000000000)) = true := by decide +kernel
  have hindexed : Compilation.mixed.symbols.Indexed :=
    (Symbols.indexed_empty.define _ _ _).define _ _ _
  cases hlink : Compilation.mixed.link with
  | error e =>
    rw [hlink] at hsize
    cases hsize
  | ok r =>
    rw [hlink] at hsize
    refine ⟨r.1, r.2, rfl, fun hosts world => ?_⟩
    exact link_keeps_meaning hlink (by decide) (by decide) (by decide) hindexed (by decide)
      (by decide +kernel) (of_decide_eq_true hsize) hosts world

end StackScript
