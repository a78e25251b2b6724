import StackScript.Proofs.Machine.Calls
import StackScript.Proofs.Safety.Code

/-!
# Compiled code cannot go wrong

Every call leads to its end: by induction on the number of steps, since a call takes a step before
its function begins. A function that is declared inside a loop may be left from its own code to
behind that loop if code is not strict, so what is known around a statement is also used for the
functions declared in it. In strict code no fault says that the code itself is broken, and a run
that ends leaves exactly the result.
-/

namespace StackScript

/-- A function that is called with all its arguments returns. -/
def EntryLeads (L : Layout) (hosts : Array HostFunction) (strict : Prop) (n : Nat) (d : Function) :
    Prop :=
  ∀ (args st : List Cell) (fr : Array Cell) (r : Nat) (cs : List Caller) (w : World),
    args.length = d.params.length →
    Leads L.program hosts strict (Active (cs.length + 1)) n
      ⟨L.entry d.name, args ++ st, fr, ⟨r, none⟩ :: cs, w⟩ (Pushed r st fr cs)

section

variable {L : Layout} {hosts : Array HostFunction} {strict : Prop} {n : Nat} {vars : List Bytes}
  {stop : Option Nat} {inLoop : Bool} {a b : Nat}

/-- A function begins and goes on with its body. -/
theorem Layout.PrologueAt.leads {params : List Bytes} {count : Nat} {args st : List Cell}
    {fr saved : Array Cell} {r : Nat} {cs callers : List Caller} {w : World}
    (h : L.PrologueAt params count vars a) (hargs : args.length = params.length)
    (hcallers : keepFrame fr callers = ⟨r, some saved⟩ :: cs)
    (hbody : Resumable L hosts strict n vars (a + 1 + params.length)) :
    Leads L.program hosts strict (Active (cs.length + 1)) n ⟨a, args ++ st, fr, callers, w⟩
      (Pushed r st saved cs) := by
  have hdepth : callers.length = cs.length + 1 := by
    rw [← keepFrame_length fr callers, hcallers, List.length_cons]
  by_cases hmax : vars.length ≤ maxCells
  · have hleads := hbody.leads st r saved cs w fun _ => boundFrame_size vars params args
    rw [← hcallers] at hleads
    exact (Leads.of_steps (hdepth ▸ h.steps hmax hargs) hleads).mono (Nat.le_add_left ..)
  · exact .of_error (.inr ⟨hdepth, trivial⟩) (h.next_error hmax) fun _ => rfl

/-- Outside strict code it does not matter whose frame is in use. -/
theorem Resumable.of_not_strict (h : Resumable L hosts strict n vars a) (hs : ¬ strict)
    (vars' : List Bytes) : Resumable L hosts strict n vars' a :=
  ⟨h.lt, fun st _ r saved cs w _ => h.leads st r saved cs w fun hstrict => absurd hstrict hs⟩

/-- The functions that are declared in the statement return. -/
def Stmt.Returns (L : Layout) (hosts : Array HostFunction) (strict : Prop) (s : Stmt Cell) : Prop :=
  ∀ ⦃n : Nat⦄ ⦃vars : List Bytes⦄ ⦃stop : Option Nat⦄ ⦃hidden : List Nat⦄ ⦃inLoop : Bool⦄
    ⦃a b : Nat⦄, s.At L vars stop hidden a b → (strict → s.leavesLoops inLoop = true) →
    (strict → ∀ d ∈ s.functions, d.body.leavesLoops false = true) →
    Around L hosts strict n vars stop inLoop b → ∀ d ∈ s.functions, EntryLeads L hosts strict n d

/-- A function returns, and so do those declared inside it. -/
theorem define_returns (pos : Position) (name : Bytes) (params : List Bytes) {body : Stmt Cell}
    (hbody : body.Returns L hosts strict) :
    (Stmt.define pos name params body).Returns L hosts strict := by
  intro n vars stop hidden inLoop a b h _ hfunctions haround
  obtain ⟨vars', m, hi, hentry, hprologue, hb, hfalse⟩ := h
  have hleaves : strict → body.leavesLoops false = true := fun hs =>
    hfunctions hs _ List.mem_cons_self
  have hin : Around L hosts strict n vars' stop false m :=
    { calls := haround.calls
      next := hfalse.resumable
      -- In strict code a function is left by returning only; otherwise frames do not matter.
      stop := fun q hq hs => by
        have hlax : ¬ strict := fun hstrict => Bool.false_ne_true (hs hstrict)
        exact (haround.stop q hq fun hstrict => absurd hstrict hlax).of_not_strict hlax vars' }
  intro d hd
  rcases List.mem_cons.mp hd with rfl | hd
  · intro args st fr r cs w hargs
    have hstart := Stmt.resumes body hb hleaves hin
    rw [hentry]
    exact hprologue.leads hargs rfl hstart
  · exact hbody hb hleaves (fun hs d hd => hfunctions hs d (List.mem_cons_of_mem _ hd)) hin d hd

mutual

/-- The functions that are declared in any statement return. -/
theorem Stmt.returns (s : Stmt Cell) : s.Returns L hosts strict := by
  match s with
  | .absent => exact fun _ _ _ _ _ _ _ _ _ _ _ => nofun
  | .block pos body => exact Stmt.block_returns pos body
  | .declare _ x value => exact fun _ _ _ _ _ _ _ _ _ _ _ => nofun
  | .assign _ x value => exact fun _ _ _ _ _ _ _ _ _ _ _ => nofun
  | .assignElement _ x row col value => exact fun _ _ _ _ _ _ _ _ _ _ _ => nofun
  | .branch _ cond yes no =>
    intro n vars stop hidden inLoop a b h hleaves hfunctions haround d hd
    obtain ⟨m, e, -, -, hy, hjump, hn⟩ := h
    have hend := (haround.next.of_jump hjump).mono (Nat.le_succ n)
    rcases List.mem_append.mp hd with hd | hd
    · exact Stmt.returns yes hy (fun hs => (Bool.and_eq_true_iff.mp (hleaves hs)).1)
        (fun hs d hd => hfunctions hs d (List.mem_append_left _ hd)) (haround.at hend) d hd
    · exact Stmt.returns no hn (fun hs => (Bool.and_eq_true_iff.mp (hleaves hs)).2)
        (fun hs d hd => hfunctions hs d (List.mem_append_right _ hd)) haround d hd
  | .whileLoop pos cond body =>
    intro n vars stop hidden inLoop a b h hleaves hfunctions haround
    -- Behind the body comes the jump back, so it goes on there as at the start of the loop.
    have hstart := whileLoop_resumes pos cond (Stmt.resumes body) h hleaves haround
    obtain ⟨m, e, -, -, hb, hback, rfl⟩ := h
    have hend := (hstart.of_jump hback).mono (Nat.le_succ n)
    exact Stmt.returns body hb hleaves hfunctions
      ⟨haround.calls, hend, by rintro q ⟨⟩ -; exact haround.next⟩
  | .countLoop pos index count body =>
    intro n vars stop hidden inLoop a b h hleaves hfunctions haround
    have htest := countLoop_test (Stmt.resumes body) h hleaves haround
    obtain ⟨k, m, e, hk, -, -, -, -, -, -, hb, hload, hone, hadd, hstore, hback, rfl⟩ := h
    have hend := (htest.of_increment hk.lt hload hone hadd hstore hback).mono (Nat.le_succ n)
    exact Stmt.returns body hb hleaves hfunctions
      ⟨haround.calls, hend, by rintro q ⟨⟩ -; exact haround.next⟩
  | .leave _ => exact fun _ _ _ _ _ _ _ _ _ _ _ => nofun
  | .giveBack _ value => exact fun _ _ _ _ _ _ _ _ _ _ _ => nofun
  | .define pos name params body => exact define_returns pos name params (Stmt.returns body)
  | .perform _ name args => exact fun _ _ _ _ _ _ _ _ _ _ _ => nofun

/-- The functions that are declared in statements in sequence return. -/
theorem Stmt.block_returns (pos : Position) (ss : List (Stmt Cell)) :
    (Stmt.block pos ss).Returns L hosts strict := by
  match ss with
  | [] => exact fun _ _ _ _ _ _ _ _ _ _ _ => nofun
  | s :: ss =>
    intro n vars stop hidden inLoop a b h hleaves hfunctions haround d hd
    obtain ⟨m, hs, hrest⟩ := h
    have hlater : strict → (Stmt.block pos ss).leavesLoops inLoop = true := fun hs =>
      (Bool.and_eq_true_iff.mp (hleaves hs)).2
    rcases List.mem_append.mp hd with hd | hd
    · exact Stmt.returns s hs (fun hs => (Bool.and_eq_true_iff.mp (hleaves hs)).1)
        (fun hs d hd => hfunctions hs d (List.mem_append_left _ hd))
        (haround.at (Stmt.block_resumes pos ss hrest hlater haround)) d hd
    · exact Stmt.block_returns pos ss hrest hlater
        (fun hs d hd => hfunctions hs d (List.mem_append_right _ hd)) haround d hd

end

end

section

variable {t : Tree Cell} {imports : List Import} {L : Layout} {hosts : Array HostFunction}
  {strict : Prop} (hL : Compiled t imports L) (hleaves : strict → t.leavesLoops = true)
  (hnatives : strict → imports.length ≤ hosts.size ∧ imports.length ≤ 0x400000)

include hL hnatives in
/-- A call of a function of the host leads to its end. -/
theorem native_leads {name : Bytes} {k a b n : Nat} (hcall : L.CallAt name k a b)
    (hnone : functionNamed? L.functions name = none) {args : List Cell} (hargs : args.length = k)
    (st : List Cell) (fr : Array Cell) (cs : List Caller) (w : World) :
    Leads L.program hosts strict (Running cs.length a b) n ⟨a, args ++ st, fr, cs, w⟩
      (Pushed b st fr cs) := by
  unfold Layout.CallAt at hcall
  rw [hnone] at hcall
  obtain ⟨i, o, hi, hcode, hop, hunpack, rfl⟩ := hcall
  have hgood : Running cs.length a (a + 1) ⟨a, args ++ st, fr, cs, w⟩ :=
    .inr ⟨rfl, Nat.le_refl a, Nat.lt_succ_self a⟩
  cases hf : hosts[i % 0x400000]? with
  | none =>
    obtain ⟨f, s', hnext⟩ : ∃ f s', L.program.next hosts ⟨a, args ++ st, fr, cs, w⟩ =
        some (.error f s') := next_callHost_error hcode hop hunpack hf
    refine .of_error hgood hnext fun hs => ?_
    -- In the strict case the host has a function for every index that was given out.
    have hlt := hL.native_lt hi
    obtain ⟨hsize, hsmall⟩ := hnatives hs
    rw [Nat.mod_eq_of_lt (Nat.lt_of_lt_of_le hlt hsmall), Array.getElem?_eq_none_iff] at hf
    omega
  | some f =>
    have hnext : L.program.next hosts ⟨a, args ++ st, fr, cs, w⟩ = _ :=
      next_callHost hcode hop hunpack hf hargs
    cases hrun : f.run args w with
    | ok v w' =>
      rw [hrun] at hnext
      exact .of_next hgood hnext (.now ⟨_, _, rfl⟩)
    | error e w' =>
      rw [hrun] at hnext
      exact .of_error hgood hnext fun _ => rfl

include hleaves in
/-- The functions of a tree leave only loops of their own. -/
theorem leavesLoops_functions (hs : strict) :
    Stmt.allLeaveLoops false t.body = true ∧
      ∀ d ∈ Stmt.allFunctions t.body, d.body.leavesLoops false = true := by
  have h := hleaves hs
  rw [Tree.leavesLoops, Bool.and_eq_true, List.all_eq_true] at h
  exact h

include hL hleaves hnatives

/-- All calls lead to their ends. -/
theorem Compiled.callsLead (n : Nat) : CallsLead L hosts strict n := by
  induction n with
  | zero => exact fun _ _ _ _ _ _ _ _ _ _ _ => .zero
  | succ n ih =>
    -- The induction is on the bound: the call itself takes a step, so inside of it calls lead to
    -- their ends for one step less.
    obtain ⟨vars, m, -, hbody, hfalse⟩ := hL.program
    have hentries := Stmt.block_returns t.pos t.body hbody
      (fun hs => (leavesLoops_functions hleaves hs).1)
      (fun hs => (leavesLoops_functions hleaves hs).2) ⟨ih, hfalse.resumable, nofun⟩
    intro name k a b hcall args st fr cs w hargs
    cases hd : functionNamed? L.functions name with
    | none => exact native_leads hL hnatives hcall hd hargs st fr cs w
    | some d =>
      obtain ⟨hmem, vars, stop, e, m, hprologue, -⟩ := hL.function_at hd
      have hname : d.name = name := (functionNamed?_eq_some hd).2
      have hk : k ≤ d.params.length := by
        unfold Layout.CallAt at hcall
        rw [hd] at hcall
        exact hcall.1
      have hall : (List.replicate (d.params.length - k) (some (Value.boolean false)) ++
          args).length = d.params.length := by
        rw [List.length_append, List.length_replicate]
        omega
      have hleads := hentries d hmem _ st fr b cs w hall
      rw [hname] at hleads
      -- While the function is active, more is under way than the caller.
      have hinside : ∀ q, Active (cs.length + 1) q → Running cs.length a b q := fun q hq =>
        .inl (hq.elim (Nat.lt_of_succ_lt ·) fun hq => hq.1 ▸ Nat.lt_succ_self _)
      exact (Leads.of_steps (hcall.steps hL.constant hd hprologue.2.2.1.lt args)
        (hleads.weaken hinside)).mono (by omega)

/-- The whole program leads to its end with one value on the stack. -/
theorem Compiled.leads (n : Nat) (w : World) :
    Leads L.program hosts strict (Active 1) n (State.start L.program.code.size w)
      (Pushed L.program.code.size [] #[] []) := by
  obtain ⟨vars, m, hprologue, hbody, hfalse⟩ := hL.program
  have hstart := Stmt.block_resumes t.pos t.body hbody
    (fun hs => (leavesLoops_functions hleaves hs).1)
    ⟨hL.callsLead hleaves hnatives n, hfalse.resumable, nofun⟩
  have hargs : ([] : List Cell).length = ([] : List Bytes).length := rfl
  have hcallers : keepFrame #[] [⟨L.program.code.size, some #[]⟩] =
      [⟨L.program.code.size, some #[]⟩] := rfl
  exact hprologue.leads hargs hcallers hstart

end

/-- No run of a compiled program in which every `leave` is inside a loop of its own function fails
in a way that means its code is broken, and one that ends with a result has exactly one value on
the stack just before the result is popped. -/
theorem run_not_broken {t : Tree Cell} {imports : List Import} {p : Program}
    {hosts : Array HostFunction} (h : compile t imports = .ok p)
    (hfits : p.code.size < 0x8000000000000000) (hleaves : t.leavesLoops = true)
    (hnatives : imports.length ≤ hosts.size) (hsmall : imports.length < 0x400000)
    (blocks : Nat) (world : World) :
    match run p hosts blocks world with
    | .ok v s => ∃ n last c, Steps p hosts n (State.start p.code.size world) last ∧
        last.stack = [c] ∧ result last = .ok v s
    | .error e _ => e ≠ .noResult ∧ ∀ place i f, e = .fault place i f → f.isBroken = false := by
  obtain ⟨L, rfl, hL⟩ := compile_layout h hfits
  have hleads : Leads L.program hosts True _ (blocks * blockSize + 1) _ _ :=
    hL.leads (fun _ => hleaves) (fun _ => ⟨hnatives, Nat.le_of_lt hsmall⟩) _ world
  have hcancelled : RunError.cancelled ≠ .noResult ∧
      ∀ place i f, RunError.cancelled = .fault place i f → f.isBroken = false := by
    constructor
    · rintro ⟨⟩
    · rintro place i f ⟨⟩
  rw [run]
  -- One more step than the run is granted: if the program lasts so long, the run is cancelled.
  rcases hleads with
    ⟨n, last, hsteps, v, w, rfl⟩ | ⟨n, s, f, s', hsteps, -, hnext, hf⟩ | ⟨r, hlasts⟩
  · have hsteps := hsteps.steps
    have hend : L.program.next hosts ⟨L.program.code.size, [v], #[], [], w⟩ = none := by
      simp [Program.next]
    rcases runWithin_of_end hsteps hend (blocks * blockSize) with hrun | ⟨s, hrun⟩
    · rw [hrun]
      cases v with
      | none =>
        constructor
        · rintro ⟨⟩
        · rintro place i f ⟨⟩
      | some v => exact ⟨n, _, some v, hsteps, rfl, rfl⟩
    · rw [hrun]
      exact hcancelled
  · rcases runWithin_of_fault hsteps.steps hnext (blocks * blockSize) with
      ⟨place, i, hrun⟩ | ⟨s, hrun⟩
    · rw [hrun]
      constructor
      · rintro ⟨⟩
      · rintro place i f ⟨⟩
        exact hf trivial
    · rw [hrun]
      exact hcancelled
  · obtain ⟨s, hrun⟩ := runWithin_of_lasts ⟨r, hlasts.steps⟩
    rw [hrun]
    exact hcancelled

/-- Runs of a program with calls and loops, with the standard functions of the host. -/
theorem run_not_broken_sumOfSquares : ∃ p,
    compile .sumOfSquares (Host.standard.map fun f => ⟨f.name, f.minimum⟩) = .ok p ∧
    p.code.size < 0x8000000000000000 ∧ Tree.sumOfSquares.leavesLoops = true ∧
    ∀ blocks world, match run p Host.standard.toArray blocks world with
      | .ok v s => ∃ n last c,
          Steps p Host.standard.toArray n (State.start p.code.size world) last ∧
          last.stack = [c] ∧ result last = .ok v s
      | .error e _ => e ≠ .noResult ∧ ∀ place i f, e = .fault place i f → f.isBroken = false := by
  obtain ⟨p, h, hfits⟩ := exists_compile .sumOfSquares
    (Host.standard.map fun f => ⟨f.name, f.minimum⟩)
    (fun p => p.code.size < 0x8000000000000000) (by decide +kernel)
  exact ⟨p, h, hfits, by decide,
    run_not_broken h hfits (by decide) (by decide +kernel) (by decide +kernel)⟩

end StackScript
