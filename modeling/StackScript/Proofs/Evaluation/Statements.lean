import StackScript.Proofs.Evaluation.Simulation

/-!
# Statements follow their evaluation

A statement ends in one of three ways, and the machine ends it at one of three places: behind the
code of the statement, behind that of the loop it is in, or where the function returns to. In the
first two the frame holds the variables as they are then, and the hidden indices of the loops around
the statement are as they were.
-/

namespace StackScript

variable {index x : Bytes} {i : Cell} {e j : Nat} {body : Stmt Cell}

/-- What a function returns to. -/
structure ReturnTo where
  /-- The stack of the caller. -/
  stack : List Cell
  /-- The place where the caller goes on. -/
  resume : Nat
  /-- The frame of the caller. -/
  frame : Array Cell
  /-- What the caller returns to. -/
  callers : List Caller

namespace ReturnTo

/-- The state of a function that is running, at a place with a frame. -/
def running (k : ReturnTo) (i : Nat) (fr : Array Cell) (w : World) : State :=
  ⟨i, k.stack, fr, ⟨k.resume, some k.frame⟩ :: k.callers, w⟩

/-- The state when a function has returned a value. -/
def returned (k : ReturnTo) (v : Cell) (w : World) : State :=
  ⟨k.resume, v :: k.stack, k.frame, k.callers, w⟩

end ReturnTo

/-- Two frames have the same in some slots. -/
def Keeps (slots : List Nat) (fr fr' : Array Cell) : Prop := ∀ j ∈ slots, fr'[j]? = fr[j]?

/-- How a statement ends that began with a given frame. -/
def Ends (k : ReturnTo) (vars : List Bytes) (hidden : List Nat) (stop : Option Nat) (inLoop : Bool)
    (b : Nat) (fr : Array Cell) : Flow → Activation → State → Prop
  | .next, act, s => ∃ fr', s = k.running b fr' act.world ∧ Represents vars fr' act.vars ∧
      Keeps hidden fr fr'
  | .leave, act, s => inLoop = true ∧ ∃ q fr', stop = some q ∧ s = k.running q fr' act.world ∧
      Represents vars fr' act.vars ∧ Keeps hidden fr fr'
  | .giveBack v, act, s => s = k.returned v act.world

/-- What is known around a statement: execution can go on in the program behind it and where a
`leave` goes, and the slots of hidden indices are not those of plain names. -/
structure Site (L : Layout) (vars : List Bytes) (stop : Option Nat) (hidden : List Nat)
    (inLoop : Bool) (b : Nat) : Prop where
  once : L.once
  next : b < L.program.code.size
  stop : ∀ q, stop = some q → inLoop = true → q < L.program.code.size
  hidden : ∀ j ∈ hidden, ∃ x, vars[j]? = some x ∧ isPlainName x = false

/-- The code of the statement follows its evaluation. -/
def Stmt.Simulated (L : Layout) (hosts : Array HostFunction) (call : Calls) (n : Nat)
    (s : Stmt Cell) : Prop :=
  ∀ ⦃vars : List Bytes⦄ ⦃stop : Option Nat⦄ ⦃hidden : List Nat⦄ ⦃inLoop : Bool⦄ ⦃a b : Nat⦄,
    s.At L vars stop hidden a b → s.leavesLoops inLoop = true → s.regular L.functions = true →
    Site L vars stop hidden inLoop b →
    ∀ (k : ReturnTo) ⦃fr : Array Cell⦄ ⦃act : Activation⦄, Represents vars fr act.vars →
      Follows L.program hosts Activation.world n (k.running a fr act.world)
        (Ends k vars hidden stop inLoop b fr) (s.exec L.program.constants.toList call n act)

section

variable {L : Layout} {hosts : Array HostFunction} {call : Calls} {n : Nat} {vars : List Bytes}
  {stop : Option Nat} {hidden : List Nat} {inLoop : Bool} {a b : Nat} {k : ReturnTo}
  {fr fr' : Array Cell} {act : Activation}

/-- A frame keeps its own slots. -/
theorem Keeps.refl (slots : List Nat) (fr : Array Cell) : Keeps slots fr fr := fun _ _ => rfl

/-- An end that was reached from a later frame. -/
theorem Ends.of_keeps (h : Keeps hidden fr fr') {flow : Flow} {s : State}
    (hends : Ends k vars hidden stop inLoop b fr' flow act s) :
    Ends k vars hidden stop inLoop b fr flow act s := by
  match flow with
  | .next =>
    obtain ⟨fr'', hs, hrep, hkeeps⟩ := hends
    exact ⟨fr'', hs, hrep, fun j hj => (hkeeps j hj).trans (h j hj)⟩
  | .leave =>
    obtain ⟨hin, q, fr'', hq, hs, hrep, hkeeps⟩ := hends
    exact ⟨hin, q, fr'', hq, hs, hrep, fun j hj => (hkeeps j hj).trans (h j hj)⟩
  | .giveBack v => exact hends

/-- Storing into a slot that is not one of several. -/
theorem Keeps.set (hj : j ∉ hidden) (fr : Array Cell) (v : Cell) :
    Keeps hidden fr (fr.setIfInBounds j v) := by
  intro i hi
  exact Array.getElem?_setIfInBounds_ne fun (he : j = i) => hj (he ▸ hi)

/-- The slot of a plain name is not one of a hidden index. -/
theorem Site.not_mem (h : Site L vars stop hidden inLoop b) (hx : isPlainName x = true)
    (hj : slotOf vars x = some j) : j ∉ hidden := by
  intro hmem
  obtain ⟨y, hy, hplain⟩ := h.hidden j hmem
  rw [slotOf_eq_some hj] at hy
  cases hy
  rw [hx] at hplain
  cases hplain

/-- An assignment to a variable ends a statement. -/
theorem Site.follows_store (h : Site L vars stop hidden inLoop (a + 1)) {v : Cell}
    (hx : isPlainName x = true) (hj : slotOf vars x = some j) (hi : L.Has a .store j)
    (hfr : Represents vars fr act.vars) :
    Follows L.program hosts Activation.world n
      ⟨a, v :: k.stack, fr, ⟨k.resume, some k.frame⟩ :: k.callers, act.world⟩
      (Ends k vars hidden stop inLoop (a + 1) fr)
      ((do Eval.setVar x v; return .next : Eval Flow) act) := by
  refine .of_next (next_store hi (hfr.lt hj)) ?_
  rw [Eval.setVar_bind]
  exact .now ⟨_, rfl, hfr.set hj v, Keeps.set (h.not_mem hx hj) fr v⟩

/-- A loop is simulated if its body is. -/
theorem whileLoop_simulated (pos : Position) (cond : Expr Cell)
    (hcalls : CallsFollow L hosts call n) (hbody : body.Simulated L hosts call n) :
    (Stmt.whileLoop pos cond body).Simulated L hosts call n := by
  intro vars stop hidden inLoop a b h hleaves hregular hsite k fr act hfr
  obtain ⟨m, e, hc, hj, hb, hback, rfl⟩ := h
  simp only [Stmt.regular, Bool.and_eq_true] at hregular
  have hlt : a < L.program.code.size := Nat.lt_of_le_of_lt hc.le hj.lt
  have hin : Site L vars (some (e + 1)) hidden true e :=
    { hsite with
      next := hback.lt
      stop := by
        rintro q ⟨⟩ -
        exact hsite.next }
  -- The induction is on the bound of the repetitions; each of them takes a step, the jump back.
  have hrepeat : ∀ j ≤ n, ∀ ⦃fr : Array Cell⦄ ⦃act : Activation⦄, Represents vars fr act.vars →
      Follows L.program hosts Activation.world j (k.running a fr act.world)
        (Ends k vars hidden stop inLoop (e + 1) fr)
        (Eval.repeatWhile (cond.test L.program.constants.toList call)
          (body.exec L.program.constants.toList call n) j act) := by
    intro j
    induction j with
    | zero => exact fun _ _ _ _ => .unfinished
    | succ j ih =>
      intro hjn fr act hfr
      rw [Eval.repeatWhile]
      refine ((hc.follows_test hcalls hregular.1 hj hsite.next _ _ hfr).mono hjn).bind ?_
      rintro x act₁ _ ⟨hvars₁, rfl⟩
      rw [← hvars₁] at hfr
      cases x with
      | false => exact .now ⟨fr, rfl, hfr, .refl _ _⟩
      | true =>
        refine ((hbody hb hleaves hregular.2 hin k hfr).mono hjn).bind ?_
        rintro (_ | _ | v) act₂ s hends
        · obtain ⟨fr', rfl, hfr', hkeeps⟩ := hends
          refine .of_next_succ (next_jump hback hlt) ?_
          exact (ih (Nat.le_of_succ_le hjn) hfr').imp fun _ _ _ hends => hends.of_keeps hkeeps
        · obtain ⟨-, q, fr', ⟨⟩, rfl, hfr', hkeeps⟩ := hends
          exact .now ⟨fr', rfl, hfr', hkeeps⟩
        · exact .now hends
  exact hrepeat n (Nat.le_refl n) hfr

/-- The index of a counting loop has a slot of its own, in which it can be set. -/
theorem IndexAt.store (hsite : Site L vars stop hidden inLoop b) (hj : IndexAt vars hidden index j)
    (hplain : isPlainName index = true) (hfr : Represents vars fr act.vars) (i : Cell) :
    j < fr.size ∧ j ∉ hidden ∧
      Represents vars (fr.setIfInBounds j i) (act.setIndex index i).vars := by
  unfold Activation.setIndex
  unfold IndexAt at hj
  split at hj
  · rename_i hempty
    obtain ⟨⟨m, hm⟩, hnot⟩ := hj
    rw [if_pos hempty]
    exact ⟨hfr.lt hm, hnot, hfr.set_hidden (slotOf_eq_some hm) (isPlainName_hiddenName m) i⟩
  · rename_i hnamed
    rw [if_neg hnamed]
    exact ⟨hfr.lt hj, hsite.not_mem hplain hj, hfr.set hj i⟩

/-- Around the body of a counting loop its index is hidden too, if it has no name. -/
theorem Site.count (hsite : Site L vars stop hidden inLoop b) (hj : IndexAt vars hidden index j)
    (he : e < L.program.code.size) : Site L vars (some b) (hiddenWith hidden index j) true e where
  once := hsite.once
  next := he
  stop := by
    rintro q ⟨⟩ -
    exact hsite.next
  hidden := by
    intro i hi
    unfold hiddenWith at hi
    unfold IndexAt at hj
    split at hi
    · rename_i hempty
      rw [if_pos hempty] at hj
      obtain ⟨⟨m, hm⟩, -⟩ := hj
      rcases List.mem_cons.mp hi with rfl | hi
      · exact ⟨_, slotOf_eq_some hm, isPlainName_hiddenName m⟩
      · exact hsite.hidden i hi
    · exact hsite.hidden i hi

/-- Behind the body of a counting loop its index is what the evaluation has for it. -/
theorem IndexAt.after (hj : IndexAt vars hidden index j) (hplain : isPlainName index = true)
    (hcounts : fr[j]? = some i) (hkeeps : Keeps (hiddenWith hidden index j) fr fr')
    (hfr : Represents vars fr' act.vars) :
    fr'.getD j none = (if index.isEmpty then i else act.vars index) ∧ Keeps hidden fr fr' := by
  unfold IndexAt at hj
  unfold hiddenWith at hkeeps
  split at hj
  · rename_i hempty
    rw [if_pos hempty] at hkeeps
    rw [if_pos hempty, Array.getD_eq_getD_getElem?, hkeeps j List.mem_cons_self, hcounts]
    exact ⟨rfl, fun i hi => hkeeps i (List.mem_cons_of_mem j hi)⟩
  · rename_i hnamed
    rw [if_neg hnamed] at hkeeps
    rw [if_neg hnamed]
    exact ⟨hfr.getD hplain hj, hkeeps⟩

/-- The index of a counting loop is counted on before the test is made again. -/
theorem IndexAt.follows_increment (hsite : Site L vars stop hidden inLoop b) {m start : Nat}
    (hj : IndexAt vars hidden index j) (hplain : isPlainName index = true) (hload : L.Has e .load j)
    (hone : L.Pushes (e + 1) (some (.integer 1))) (hadd : L.Has (e + 2) .add 0)
    (hstore : L.Has (e + 3) .store j) (hback : L.Has (e + 4) .jump start)
    (hstart : start < L.program.code.size) (hfr : Represents vars fr act.vars)
    (hi : fr.getD j none = if index.isEmpty then i else act.vars index)
    {post : Flow → Activation → State → Prop} {f : Cell → Eval Flow}
    (h : ∀ i', Represents vars (fr.setIfInBounds j i') (act.setIndex index i').vars →
      Follows L.program hosts Activation.world m
        (k.running start (fr.setIfInBounds j i') act.world) post (f i' (act.setIndex index i'))) :
    Follows L.program hosts Activation.world (m + 1) (k.running e fr act.world) post
      ((do
        let i ← Eval.lift (Operator.add.evaluate (← Eval.store) (← Eval.getIndex index i)
          (some (.integer 1)))
        Eval.setIndex index i
        f i : Eval Flow) act) := by
  obtain ⟨hlt, -⟩ := hj.store hsite hplain hfr none
  rw [Eval.store_bind, Eval.getIndex_bind, ← hi]
  refine .of_next (next_load hload hlt) (.of_next (next_pushes hone) ?_)
  rw [entryOf_integer]
  refine .lift (does_operator .add rfl hadd) rfl fun i' _ => ?_
  obtain ⟨-, -, hfr'⟩ := hj.store hsite hplain hfr i'
  rw [Eval.setIndex_bind]
  exact .of_next (next_store hstore hlt) (.of_next_succ (next_jump hback hstart) (h i' hfr'))

/-- A counting loop is simulated if its body is. -/
theorem countLoop_simulated (pos : Position) (index : Bytes) (count : Expr Cell)
    (hcalls : CallsFollow L hosts call n) (hbody : body.Simulated L hosts call n) :
    (Stmt.countLoop pos index count body).Simulated L hosts call n := by
  intro vars stop hidden inLoop a b h hleaves hregular hsite k fr act hfr
  obtain ⟨j, m, e, hj, hzero, hstore, hload, hc, hless, htest, hb, hload', hone, hadd, hstore',
    hback, rfl⟩ := h
  simp only [Stmt.regular, Bool.and_eq_true] at hregular
  obtain ⟨⟨hplain, hcount⟩, hregular⟩ := hregular
  -- As for a loop with a condition, and the slot of the index holds the index of the evaluation.
  have hrepeat : ∀ m ≤ n, ∀ ⦃fr : Array Cell⦄ ⦃act : Activation⦄ ⦃i : Cell⦄,
      Represents vars fr act.vars → fr[j]? = some i →
      Follows L.program hosts Activation.world m (k.running (a + 2) fr act.world)
        (Ends k vars hidden stop inLoop (e + 5) fr)
        (Eval.repeatCounting index (count.eval L.program.constants.toList call)
          (body.exec L.program.constants.toList call n) m i act) := by
    intro m
    induction m with
    | zero => exact fun _ _ _ _ _ _ => .unfinished
    | succ m ih =>
      intro hm fr act i hfr hi
      have hlt : j < fr.size := (Array.getElem?_eq_some_iff.mp hi).1
      rw [Eval.repeatCounting]
      refine .of_next (next_load hload hlt) ?_
      rw [Array.getD_eq_getD_getElem?, hi, Option.getD_some]
      refine ((hc.follows hcalls hcount _ _ hfr).mono hm).bind ?_
      rintro limit act₁ _ ⟨hvars₁, rfl⟩
      rw [← hvars₁] at hfr
      rw [Eval.store_bind]
      refine .lift (does_operator .lt rfl hless) rfl fun less _ => ?_
      refine .lift (does_jumpUnless htest hsite.next) rfl fun x _ => ?_
      cases x.truth with
      | false => exact .now ⟨fr, rfl, hfr, .refl _ _⟩
      | true =>
        refine ((hbody hb hleaves hregular (hsite.count hj hload'.lt) k hfr).mono hm).bind ?_
        rintro (_ | _ | v) act₂ s hends
        · obtain ⟨fr', rfl, hfr', hkeeps⟩ := hends
          obtain ⟨hi', hkeeps⟩ := hj.after hplain hi hkeeps hfr'
          obtain ⟨hlt', hnot, -⟩ := hj.store hsite hplain hfr' none
          refine hj.follows_increment hsite hplain hload' hone hadd hstore' hback hload.lt hfr' hi'
            fun i' hfr'' => ?_
          have hagain := ih (Nat.le_of_succ_le hm) hfr''
            (Array.getElem?_setIfInBounds_self_of_lt hlt')
          rw [Activation.setIndex_world] at hagain
          refine hagain.imp fun _ _ _ hends => hends.of_keeps fun i hi => ?_
          exact (Keeps.set hnot fr' i' i hi).trans (hkeeps i hi)
        · obtain ⟨-, q, fr', ⟨⟩, rfl, hfr', hkeeps⟩ := hends
          exact .now ⟨fr', rfl, hfr', (hj.after hplain hi hkeeps hfr').2⟩
        · exact .now hends
  obtain ⟨hlt, hnot, hfr'⟩ := hj.store hsite hplain hfr (some (.integer 0))
  rw [Stmt.exec, Eval.setIndex_bind]
  refine .of_next (next_pushes hzero) ?_
  rw [entryOf_integer]
  refine .of_next (next_store hstore hlt) ?_
  have hstart := hrepeat n (Nat.le_refl n) hfr' (Array.getElem?_setIfInBounds_self_of_lt hlt)
  rw [Activation.setIndex_world] at hstart
  exact hstart.imp fun _ _ _ hends => hends.of_keeps (Keeps.set hnot fr _)

/-- Code that leaves the function with the value false. -/
theorem Layout.FalseAt.steps (h : L.FalseAt a b) (w : World) :
    Steps L.program hosts 2 (k.running a fr w) (k.returned (some (.boolean false)) w) := by
  obtain ⟨hpush, hret, -⟩ := h
  have hfirst : L.program.next hosts (k.running a fr w) = _ := next_pushes hpush
  rw [entryOf_boolean] at hfirst
  exact .trans (.single hfirst) (.single (next_ret hret))

mutual

/-- The code of every statement follows its evaluation. -/
theorem Stmt.simulated (hcalls : CallsFollow L hosts call n) (s : Stmt Cell) :
    s.Simulated L hosts call n := by
  match s with
  | .absent =>
    intro vars stop hidden inLoop a b h _ _ hsite k fr act hfr
    obtain rfl := h
    exact .now ⟨fr, rfl, hfr, .refl _ _⟩
  | .block pos body => exact Stmt.block_simulated hcalls pos body
  | .declare _ x value =>
    intro vars stop hidden inLoop a b h _ hregular hsite k fr act hfr
    obtain ⟨m, j, hv, -, hj, hi, rfl⟩ := h
    simp only [Stmt.regular, Bool.and_eq_true] at hregular
    rw [Stmt.exec]
    refine (hv.follows hcalls hregular.2 _ _ hfr).bind ?_
    rintro v act₁ _ ⟨hvars₁, rfl⟩
    rw [← hvars₁] at hfr
    exact hsite.follows_store hregular.1 (hj hsite.once) hi hfr
  | .assign _ x value =>
    intro vars stop hidden inLoop a b h _ hregular hsite k fr act hfr
    obtain ⟨m, j, hv, hj, hi, rfl⟩ := h
    simp only [Stmt.regular, Bool.and_eq_true] at hregular
    rw [Stmt.exec]
    refine (hv.follows hcalls hregular.2 _ _ hfr).bind ?_
    rintro v act₁ _ ⟨hvars₁, rfl⟩
    rw [← hvars₁] at hfr
    exact hsite.follows_store hregular.1 hj hi hfr
  | .assignElement _ x row col value =>
    intro vars stop hidden inLoop a b h _ hregular hsite k fr act hfr
    obtain ⟨l, m, e, j, hr, hc, hv, hj, hi, rfl⟩ := h
    simp only [Stmt.regular, Bool.and_eq_true] at hregular
    obtain ⟨⟨⟨hx, hrow⟩, hcol⟩, hvalue⟩ := hregular
    rw [Stmt.exec]
    refine (hr.follows hcalls hrow _ _ hfr).bind ?_
    rintro r act₁ _ ⟨hvars₁, rfl⟩
    rw [← hvars₁] at hfr
    refine (hc.follows hcalls hcol _ _ hfr).bind ?_
    rintro c act₂ _ ⟨hvars₂, rfl⟩
    rw [← hvars₂] at hfr
    refine (hv.follows hcalls hvalue _ _ hfr).bind ?_
    rintro v act₃ _ ⟨hvars₃, rfl⟩
    rw [← hvars₃] at hfr
    rw [Eval.getVar_bind, Eval.store_bind, ← hfr.getD hx hj]
    exact .lift (does_writeArray hi (hfr.lt hj)) rfl fun _ _ => .now ⟨fr, rfl, hfr, .refl _ _⟩
  | .branch _ cond yes no =>
    intro vars stop hidden inLoop a b h hleaves hregular hsite k fr act hfr
    obtain ⟨m, e, hc, hj, hy, hjump, hn⟩ := h
    simp only [Stmt.regular, Bool.and_eq_true] at hregular
    obtain ⟨⟨hcond, hyes⟩, hno⟩ := hregular
    have hleaves := Bool.and_eq_true_iff.mp hleaves
    have helse : e + 1 < L.program.code.size := Nat.lt_of_le_of_lt hn.le hsite.next
    rw [Stmt.exec]
    refine (hc.follows_test hcalls hcond hj helse _ _ hfr).bind ?_
    rintro x act₁ _ ⟨hvars₁, rfl⟩
    rw [← hvars₁] at hfr
    cases x with
    | false => exact Stmt.simulated hcalls no hn hleaves.2 hno hsite k hfr
    | true =>
      have hfirst := Stmt.simulated hcalls yes hy hleaves.1 hyes
        { hsite with next := hjump.lt } k hfr
      -- Behind the first branch a jump leads around the second.
      refine hfirst.extend ?_
      rintro (_ | _ | v) act₂ s hends
      · obtain ⟨fr', rfl, hends⟩ := hends
        exact ⟨1, _, .single (next_jump hjump hsite.next), fr', rfl, hends⟩
      · exact ⟨0, _, rfl, hends⟩
      · exact ⟨0, _, rfl, hends⟩
  | .whileLoop pos cond body =>
    exact whileLoop_simulated pos cond hcalls (Stmt.simulated hcalls body)
  | .countLoop pos index count body =>
    exact countLoop_simulated pos index count hcalls (Stmt.simulated hcalls body)
  | .leave _ =>
    intro vars stop hidden inLoop a b h hleaves _ hsite k fr act hfr
    obtain ⟨q, hq, hi, rfl⟩ := h
    refine .of_next (next_jump hi (hsite.stop q hq hleaves)) ?_
    exact .now ⟨hleaves, q, fr, hq, rfl, hfr, .refl _ _⟩
  | .giveBack _ value =>
    intro vars stop hidden inLoop a b h _ hregular hsite k fr act hfr
    unfold Stmt.At at h
    rw [Stmt.exec]
    split at h
    · rename_i habsent
      rw [if_pos habsent]
      exact (Follows.of_steps (h.steps act.world) (.now rfl)).mono (Nat.le_add_left n 2)
    · rename_i hpresent
      obtain ⟨m, hv, hi, rfl⟩ := h
      rw [if_neg hpresent]
      refine (hv.follows hcalls hregular _ _ hfr).bind ?_
      rintro v act₁ _ ⟨hvars₁, rfl⟩
      exact .of_next (next_ret hi) (.now rfl)
  | .define _ name params body =>
    intro vars stop hidden inLoop a b h _ _ hsite k fr act hfr
    obtain ⟨vars', m, hi, -⟩ := h
    exact .of_next (next_jump hi hsite.next) (.now ⟨fr, rfl, hfr, .refl _ _⟩)
  | .perform _ name args =>
    intro vars stop hidden inLoop a b h _ hregular hsite k fr act hfr
    obtain ⟨m, e, ha, hcall, hi, rfl⟩ := h
    simp only [Stmt.regular, Bool.and_eq_true] at hregular
    rw [Stmt.exec]
    refine (ha.follows hcalls hregular.2 _ _ hfr).bind ?_
    rintro vs act₁ _ ⟨hvars₁, hlength, rfl⟩
    rw [← hvars₁] at hfr
    rw [← hlength] at hcall hregular
    refine (hcalls.invoke hcall hregular.1 _ _ _ _).bind ?_
    rintro v act₂ _ ⟨hvars₂, rfl⟩
    rw [← hvars₂] at hfr
    exact .of_next (next_pop hi) (.now ⟨fr, rfl, hfr, .refl _ _⟩)

/-- The code of statements in sequence follows their evaluation. -/
theorem Stmt.block_simulated (hcalls : CallsFollow L hosts call n) (pos : Position)
    (ss : List (Stmt Cell)) : (Stmt.block pos ss).Simulated L hosts call n := by
  match ss with
  | [] =>
    intro vars stop hidden inLoop a b h _ _ hsite k fr act hfr
    obtain rfl := h
    exact .now ⟨fr, rfl, hfr, .refl _ _⟩
  | s :: ss =>
    intro vars stop hidden inLoop a b h hleaves hregular hsite k fr act hfr
    obtain ⟨m, hs, hrest⟩ := h
    have hleaves := Bool.and_eq_true_iff.mp hleaves
    have hregular := Bool.and_eq_true_iff.mp hregular
    have hm : m < L.program.code.size := Nat.lt_of_le_of_lt hrest.le hsite.next
    rw [Stmt.exec, Stmt.execAll]
    refine (Stmt.simulated hcalls s hs hleaves.1 hregular.1 { hsite with next := hm } k hfr).bind ?_
    rintro (_ | _ | v) act₁ s' hends
    · obtain ⟨fr', rfl, hfr', hkeeps⟩ := hends
      have hlater := Stmt.block_simulated hcalls pos ss hrest hleaves.2 hregular.2 hsite k hfr'
      exact hlater.imp fun _ _ _ hends => hends.of_keeps hkeeps
    · exact .now hends
    · exact .now hends

end

end

end StackScript
