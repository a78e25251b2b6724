import StackScript.Proofs.Evaluation.Statements
import StackScript.Proofs.Layout.Compiled
import StackScript.Proofs.Machine.Calls

/-!
# Compiler correctness

A call follows its evaluation within a bound if the body of its function does within a smaller one,
so all calls do, and with them the whole program. The main statement compares the endings that runs
have for some number of blocks with those that evaluations have for some bound: they are the same.
It holds under the conditions that `Proper` puts on the tree and `Serves` on the host.
-/

namespace StackScript

variable {hosts : Array HostFunction} {name : Bytes} {e : Ending × World} {vars : List Bytes}
  {args : List Cell} {i n : Nat} {s : State} {w : World}

/-- A host serves declarations: the function at each index has the declared name, names are
distinct, and an instruction can hold every index. -/
structure Serves (hosts : Array HostFunction) (imports : List Import) : Prop where
  named : ∀ (i : Nat) (d : Import), imports[i]? = some d →
    ∃ f : HostFunction, hosts[i]? = some f ∧ f.name = d.name
  distinct : (imports.map Import.name).Nodup
  few : imports.length < 0x400000

/-- The function of a declared name is the one at the index of the declaration. -/
theorem Serves.find? {imports : List Import} (h : Serves hosts imports) {d : Import}
    (hd : imports[i]? = some d) :
    ∃ f, hosts[i]? = some f ∧ hosts.find? (fun g => g.name == d.name) = some f := by
  obtain ⟨f, hf, hname⟩ := h.named i d hd
  refine ⟨f, hf, ?_⟩
  obtain ⟨hi, rfl⟩ := Array.getElem?_eq_some_iff.mp hf
  obtain ⟨hi', rfl⟩ := List.getElem?_eq_some_iff.mp hd
  -- No function before it has the name, since the names that are declared are distinct.
  refine Array.find?_eq_some_iff_getElem.mpr ⟨beq_iff_eq.mpr hname, i, hi, rfl, fun j hj => ?_⟩
  have hj' : j < imports.length := Nat.lt_trans hj hi'
  obtain ⟨g, hg, hgname⟩ := h.named j imports[j] (List.getElem?_eq_getElem hj')
  obtain ⟨_, rfl⟩ := Array.getElem?_eq_some_iff.mp hg
  have hne := List.pairwise_iff_getElem.mp h.distinct j i (by simpa using hj')
    (by simpa using hi') hj
  simpa [hgname] using hne

/-- The standard functions serve their own declarations. -/
theorem serves_standard :
    Serves Host.standard.toArray (Host.standard.map fun f => ⟨f.name, f.minimum⟩) where
  named i d hd := by
    rw [List.getElem?_map] at hd
    obtain ⟨f, hf, rfl⟩ := Option.map_eq_some_iff.mp hd
    exact ⟨f, by rw [List.getElem?_toArray, hf], rfl⟩
  distinct := by decide +kernel
  few := by decide +kernel

section

variable {t : Tree Cell} {imports : List Import} {L : Layout} {hosts : Array HostFunction}
  (hL : Compiled t imports L) (hserves : Serves hosts imports)
include hL hserves

/-- The index of a function of the host is that of the function of its name. -/
theorem Compiled.native_function (hi : L.native name = some i) :
    ∃ f, hosts[i % 0x400000]? = some f ∧ hosts.find? (fun g => g.name == name) = some f := by
  rw [hL.native] at hi
  obtain ⟨sig, hsig, rfl⟩ := Option.map_eq_some_iff.mp hi
  unfold Symbols.function? at hsig
  rw [Symbols.hosted_functions hserves.distinct] at hsig
  have hname := List.find?_some hsig
  obtain ⟨j, hj, rfl⟩ := List.mem_mapIdx.mp (List.mem_of_find?_eq_some hsig)
  obtain ⟨f, hf, hfind⟩ := hserves.find? (List.getElem?_eq_getElem hj)
  rw [show imports[j].name = name from eq_of_beq hname] at hfind
  refine ⟨f, ?_, hfind⟩
  rwa [Nat.mod_eq_of_lt (Nat.lt_trans hj hserves.few)]

/-- A call of a function of the host follows its evaluation. -/
theorem native_follows {a b : Nat} (hcall : L.CallAt name args.length a b)
    (hnone : functionNamed? L.functions name = none) (st : List Cell) (fr : Array Cell)
    (cs : List Caller) (w : World) :
    Follows L.program hosts id n ⟨a, args ++ st, fr, cs, w⟩
      (fun v w s => s = ⟨b, v :: st, fr, cs, w⟩) (callNative hosts name args w) := by
  unfold Layout.CallAt at hcall
  rw [hnone] at hcall
  obtain ⟨i, o, hi, hcode, hop, hunpack, rfl⟩ := hcall
  obtain ⟨f, hf, hfind⟩ := hL.native_function hserves hi
  have hnext : L.program.next hosts ⟨a, args ++ st, fr, cs, w⟩ = _ :=
    next_callHost hcode hop hunpack hf rfl
  rw [callNative]
  simp only [hfind]
  cases hrun : f.run args w with
  | ok v w' =>
    rw [hrun] at hnext
    exact ⟨1, _, .single hnext, rfl⟩
  | error e w' =>
    rw [hrun] at hnext
    exact ⟨0, _, _, _, rfl, hnext, rfl, rfl⟩

end

/-- The frame in which the body of a function starts holds its variables. -/
theorem boundFrame_represents {params : List Bytes} (hinitial : params <+: vars)
    (hnodup : params.Nodup) (hargs : args.length = params.length) :
    Represents vars (boundFrame vars params args) (bindParameters params args) where
  size := boundFrame_size vars params args
  slot x j _ hj := by
    unfold bindParameters
    cases hi : params.findIdx? fun y => y == x with
    | some i =>
      have hvars := slotOf_of_initial hinitial hi
      rw [hj] at hvars
      cases hvars
      have hlt : j < params.length := slotOf_lt hi
      change _ = some (args[j]?.getD _)
      rw [boundFrame_parameter hinitial hnodup hargs hlt, List.getElem?_eq_getElem (hargs ▸ hlt)]
      rfl
    | none =>
      -- The slot of a variable that is no parameter is not that of a parameter.
      have hne : ∀ y ∈ params, (slotOf vars y).getD 0 ≠ j := by
        rintro y hy rfl
        obtain ⟨i, hi', rfl⟩ := List.getElem_of_mem hy
        have hslot := slotOf_parameter hinitial hnodup (List.getElem?_eq_getElem hi')
        rw [hslot, Option.getD_some] at hj
        have hname := (slotOf_eq_some hslot).symm.trans (slotOf_eq_some hj)
        have hall := List.findIdx?_eq_none_iff.mp hi params[i] hy
        rw [Option.some.inj hname, beq_self_eq_true] at hall
        cases hall
      rw [boundFrame, storeArguments_getElem?_of_ne hne, Array.getElem?_replicate,
        if_pos (slotOf_lt hj)]

/-- A function whose body follows its evaluation returns what the evaluation gives back. -/
theorem Follows.activate {L : Layout} {m e : Nat} {k : ReturnTo} {hidden : List Nat}
    {stop : Option Nat} {fr : Array Cell} {env : Bytes → Cell} {body : Eval Flow}
    (h : Follows L.program hosts Activation.world n s (Ends k vars hidden stop false m fr)
      (body ⟨env, w⟩)) (hfalse : L.FalseAt m e) :
    Follows L.program hosts id n s (fun v w s => s = k.returned v w)
      (Eval.activate env body w) := by
  rw [Eval.activate]
  match hbody : body ⟨env, w⟩ with
  | .ok .next act =>
    rw [hbody] at h
    obtain ⟨j, _, hs, fr', rfl, -⟩ := h
    -- A body that ends without a result goes on to the two instructions that give back false.
    exact ⟨j + 2, _, hs.trans (hfalse.steps act.world), rfl⟩
  | .ok (.giveBack v) act =>
    rw [hbody] at h
    obtain ⟨j, _, hs, rfl⟩ := h
    exact ⟨j, _, hs, rfl⟩
  | .ok .leave act =>
    rw [hbody] at h
    -- A body is in no loop of its function, so it does not end with a `leave`.
    obtain ⟨j, _, -, ⟨⟩, -⟩ := h
  | .error (.failure f) act => rwa [hbody] at h
  | .error .unfinished act => rwa [hbody] at h
  | .error .malformed act => rwa [hbody] at h

/-- The conditions under which a program does what its tree says. -/
structure Proper (t : Tree Cell) : Prop where
  /-- Every `leave` is inside a loop of its own function. -/
  leavesLoops : t.leavesLoops = true
  /-- No variable and no parameter is declared twice in a function. -/
  declaresOnce : t.declaresOnce = true
  /-- Calls pass exactly the declared number of arguments, and no name of a variable begins with
  the character that hidden names begin with. -/
  regular : t.regular = true
  /-- No function has too many variables. -/
  framesFit : t.framesFit = true

section

variable {t : Tree Cell} {imports : List Import} {L : Layout} {hosts : Array HostFunction}
  (hL : Compiled t imports L) (ht : Proper t) (hserves : Serves hosts imports)

include ht in
/-- What the conditions say about one function. -/
theorem Proper.function {d : Function} (hd : d ∈ t.functions) :
    d.body.leavesLoops false = true ∧ d.params.Nodup ∧ d.body.regular t.functions = true ∧
      d.params.length + d.body.slotCount ≤ maxCells := by
  have hleaves := ht.leavesLoops
  have honce := ht.declaresOnce
  have hregular := ht.regular
  have hfit := ht.framesFit
  simp only [Tree.leavesLoops, Tree.declaresOnce, Tree.regular, Tree.framesFit, Bool.and_eq_true,
    List.all_eq_true, decide_eq_true_eq] at hleaves honce hregular hfit
  exact ⟨hleaves.2 d hd, (honce.2 d hd).1, (hregular.2 d hd).2, hfit.2 d hd⟩

include ht in
/-- What the conditions say about the statements outside all functions. -/
theorem Proper.main : Stmt.allLeaveLoops false t.body = true ∧
    Stmt.allRegular t.functions t.body = true ∧ Stmt.allSlotCount t.body ≤ maxCells := by
  have hleaves := ht.leavesLoops
  have hregular := ht.regular
  have hfit := ht.framesFit
  simp only [Tree.leavesLoops, Tree.regular, Tree.framesFit, Bool.and_eq_true,
    decide_eq_true_eq] at hleaves hregular hfit
  exact ⟨hleaves.1, hregular.1, hfit.1⟩

include hL ht hserves

/-- All calls follow their evaluation. -/
theorem Compiled.callsFollow (n : Nat) : CallsFollow L hosts
    (callWithin L.program.constants.toList t.functions hosts n) n := by
  induction n with
  | zero => exact fun _ _ _ _ _ _ _ _ _ _ => .unfinished
  | succ n ih =>
    intro name a b args hcall harity st fr cs w
    rw [callWithin, ← hL.functions]
    cases hd : functionNamed? L.functions name with
    | none => exact native_follows hL hserves hcall hd st fr cs w
    | some d =>
      obtain ⟨hmem, vars, stop, e, m, hprologue, hbody, hfalse⟩ := hL.function_at hd
      obtain ⟨hleaves, hnodup, hregular, hfit⟩ := ht.function hmem
      rw [hd, Option.all_some, beq_iff_eq] at harity
      rw [← hL.functions] at ih hregular
      have hsite : Site L vars stop [] false m :=
        { once := hL.once ht.declaresOnce ht.regular
          next := by
            obtain ⟨j, -, hi⟩ := hfalse.1
            exact hi.lt
          stop := nofun
          hidden := nofun }
      have hbound : Represents vars (boundFrame vars d.params args)
          (⟨bindParameters d.params args, w⟩ : Activation).vars :=
        boundFrame_represents hprologue.1 hnodup harity.symm
      have hfollows := Stmt.simulated ih d.body hbody hleaves hregular hsite ⟨st, b, fr, cs⟩ hbound
      have hmax : vars.length ≤ maxCells := hprologue.2.1 ▸ hfit
      have hstart : Steps L.program hosts _ ⟨a, args ++ st, fr, cs, w⟩ _ :=
        (hcall.steps hL.constant hd hprologue.2.2.1.lt args).steps
      -- No argument is missing, so none is pushed before the call.
      rw [harity, Nat.sub_self] at hstart
      have hbegin := hstart.trans (hprologue.steps hmax harity.symm).steps
      exact (Follows.of_steps hbegin (hfollows.activate hfalse)).mono (by omega)

/-- The program follows its evaluation. -/
theorem Compiled.follows (n : Nat) (w : World) :
    Follows L.program hosts id n (State.start L.program.code.size w)
      (fun v w s => s = ⟨L.program.code.size, [v], #[], [], w⟩)
      (Eval.activate (bindParameters [] []) (Stmt.execAll L.program.constants.toList
        (callWithin L.program.constants.toList t.functions hosts n) n t.body) w) := by
  obtain ⟨vars, m, hprologue, hbody, hfalse⟩ := hL.program
  obtain ⟨hleaves, hregular, hfit⟩ := ht.main
  have hcalls := hL.callsFollow ht hserves n
  rw [← hL.functions] at hregular hcalls ⊢
  -- The program is in no loop and no index is hidden from it.
  have hsite : Site L vars none [] false m :=
    { once := hL.once ht.declaresOnce ht.regular
      next := by
        obtain ⟨j, -, hi⟩ := hfalse.1
        exact hi.lt
      stop := nofun
      hidden := nofun }
  have hbound : Represents vars (boundFrame vars [] [])
      (⟨bindParameters [] [], w⟩ : Activation).vars :=
    boundFrame_represents hprologue.1 List.nodup_nil rfl
  have hmax : vars.length ≤ maxCells := by
    have := hprologue.2.1
    rw [List.length_nil] at this
    omega
  have hfollows := Stmt.block_simulated hcalls t.pos t.body hbody hleaves hregular hsite
    ⟨[], L.program.code.size, #[], []⟩ hbound
  have hargs : ([] : List Cell).length = ([] : List Bytes).length := rfl
  have hbegin : Steps L.program hosts _ (State.start L.program.code.size w) _ :=
    (hprologue.steps hmax hargs).steps
  exact (Follows.of_steps hbegin (hfollows.activate hfalse)).mono (Nat.le_add_left n _)

end

/-! ## Endings -/

/-- How a program ends. -/
inductive Ending
  /-- With a result. -/
  | result (v : Int64)
  /-- With a failure. -/
  | failed (f : Failure)
  /-- In a way that no program should end. -/
  | broken
deriving DecidableEq

/-- How a run without a result ended, unless it was cancelled. -/
def RunError.ending? : RunError → Option Ending
  | cancelled => none
  | fault _ _ f => some (f.failure?.elim .broken .failed)
  | noResult => some .broken
  | missingResult => some (.failed .missingValue)

/-- How a run ended, and the world then, unless it was cancelled. -/
def runEnding : EStateM.Result RunError State Int64 → Option (Ending × World)
  | .ok v s => some (.result v, s.world)
  | .error e s => e.ending?.map fun x => (x, s.world)

/-- How an evaluation ended, and the world then, unless its bound was reached. -/
def evaluationEnding : EStateM.Result Stop World Int64 → Option (Ending × World)
  | .ok v w => some (.result v, w)
  | .error (.failure f) w => some (.failed f, w)
  | .error .unfinished _ => none
  | .error .malformed w => some (.broken, w)

/-- A run that ended ends in the same way if it is granted more. -/
theorem runEnding_mono {p : Program} {fuel more : Nat}
    (h : runEnding (runWithin p hosts fuel s) = some e) (hmore : fuel ≤ more) :
    runEnding (runWithin p hosts more s) = some e := by
  induction fuel generalizing s more with
  | zero =>
    cases hnext : p.next hosts s with
    | none =>
      rw [runWithin_of_next_none hnext] at h ⊢
      exact h
    | some r =>
      rw [runWithin_zero hnext] at h
      cases h
  | succ fuel ih =>
    -- Both runs take the same step, and each is granted one less then.
    obtain ⟨more, rfl⟩ : ∃ m, more = m + 1 := ⟨more - 1, by omega⟩
    cases hnext : p.next hosts s with
    | none =>
      rw [runWithin_of_next_none hnext] at h ⊢
      exact h
    | some r =>
      cases r with
      | ok u s' =>
        have hstep : Steps p hosts 1 s s' := .single hnext
        rw [Nat.add_comm, hstep.runWithin] at h ⊢
        exact ih h (Nat.le_of_succ_le_succ hmore)
      | error f s' =>
        obtain ⟨i, hi, hstep⟩ := Option.map_eq_some_iff.mp hnext
        rw [runWithin] at h ⊢
        simp only [hi, hstep] at h ⊢
        exact h

section

variable {t : Tree Cell} {imports : List Import} {L : Layout} {hosts : Array HostFunction}
  (hL : Compiled t imports L) (ht : Proper t) (hserves : Serves hosts imports)
include hL ht hserves

/-- An evaluation that reaches its bound is followed for as many steps. -/
theorem Compiled.lasts
    (h : evaluationEnding (t.evaluate L.program.constants.toList hosts n w) = none) :
    Lasts L.program hosts n (State.start L.program.code.size w) := by
  have hfollows := hL.follows ht hserves n w
  rw [Tree.evaluate] at h
  generalize Eval.activate (bindParameters [] []) (Stmt.execAll L.program.constants.toList
    (callWithin L.program.constants.toList t.functions hosts n) n t.body) w = r at h hfollows
  cases r with
  | ok v w' => cases v <;> cases h
  | error stop w' =>
    cases stop with
    | failure f => cases h
    | unfinished => exact hfollows
    | malformed => cases h

/-- An evaluation that ends is followed by every run that is granted enough, and does not end in a
way that no program should. -/
theorem Compiled.ends
    (h : evaluationEnding (t.evaluate L.program.constants.toList hosts n w) = some e) :
    e.1 ≠ .broken ∧ ∃ fuel, runEnding (runWithin L.program hosts fuel
      (State.start L.program.code.size w)) = some e := by
  have hfollows := hL.follows ht hserves n w
  rw [Tree.evaluate] at h
  generalize Eval.activate (bindParameters [] []) (Stmt.execAll L.program.constants.toList
    (callWithin L.program.constants.toList t.functions hosts n) n t.body) w = r at h hfollows
  cases r with
  | ok v w' =>
    obtain ⟨m, s, hsteps, rfl⟩ := hfollows
    -- The steps lead to the end of the code, where the run stops with the value on top.
    have hend : L.program.next hosts ⟨L.program.code.size, [v], #[], [], w'⟩ = none := by
      simp [Program.next]
    have hrun := (hsteps.runWithin 0).trans (runWithin_of_next_none hend 0)
    cases v with
    | some v =>
      cases h
      exact ⟨by rintro ⟨⟩, m, congrArg runEnding hrun⟩
    | none =>
      cases h
      exact ⟨by rintro ⟨⟩, m, congrArg runEnding hrun⟩
  | error stop w' =>
    cases stop with
    | failure f =>
      obtain ⟨m, s, fault, s', hsteps, hnext, hfault, hworld⟩ := hfollows
      cases h
      obtain ⟨place, i, herror⟩ := runWithin_of_next_error hnext 0
      refine ⟨by rintro ⟨⟩, m + 1, ?_⟩
      rw [hsteps.runWithin 1, herror, runEnding, RunError.ending?, hfault]
      exact congrArg (fun w => some (Ending.failed f, w)) hworld
    | unfinished => cases h
    | malformed => exact hfollows.elim

end

/-- Compiler correctness. A program that was compiled from a proper tree, and whose host serves its
declarations, ends in a world exactly as the direct evaluation of the tree does: with the same
result or the same failure, and with the same world then. In particular it runs forever exactly if
the evaluation does. -/
theorem run_iff_evaluate {t : Tree Cell} {imports : List Import} {p : Program}
    {hosts : Array HostFunction} (h : compile t imports = .ok p)
    (hfits : p.code.size < 0x8000000000000000) (ht : Proper t) (hserves : Serves hosts imports)
    (world : World) (e : Ending × World) :
    ((∃ blocks, runEnding (run p hosts blocks world) = some e) ↔
      ∃ bound, evaluationEnding (t.evaluate p.constants.toList hosts bound world) = some e) ∧
    ((∃ blocks, runEnding (run p hosts blocks world) = some e) → e.1 ≠ .broken) := by
  obtain ⟨L, rfl, hL⟩ := compile_layout h hfits
  have hforward : ∀ bound, evaluationEnding
      (t.evaluate L.program.constants.toList hosts bound world) = some e →
      ∃ blocks, runEnding (run L.program hosts blocks world) = some e := by
    intro bound hbound
    obtain ⟨-, fuel, hfuel⟩ := hL.ends ht hserves hbound
    exact ⟨fuel, runEnding_mono hfuel (Nat.le_mul_of_pos_right fuel (by decide))⟩
  -- An evaluation with a larger bound than the steps of the run is finished, and as the run is.
  have hback : ∀ blocks, runEnding (run L.program hosts blocks world) = some e →
      e.1 ≠ .broken ∧ ∃ bound, evaluationEnding
        (t.evaluate L.program.constants.toList hosts bound world) = some e := by
    intro blocks hblocks
    cases heval : evaluationEnding (t.evaluate L.program.constants.toList hosts
        (blocks * blockSize + 1) world) with
    | none =>
      obtain ⟨s, hcancelled⟩ := runWithin_of_lasts (hL.lasts ht hserves heval)
      rw [run, hcancelled] at hblocks
      cases hblocks
    | some e' =>
      obtain ⟨hbroken, fuel, hfuel⟩ := hL.ends ht hserves heval
      have hrun := runEnding_mono hblocks (Nat.le_add_right _ fuel)
      rw [runEnding_mono hfuel (Nat.le_add_left fuel _)] at hrun
      cases hrun
      exact ⟨hbroken, _, heval⟩
  exact ⟨⟨fun ⟨blocks, hb⟩ => (hback blocks hb).2, fun ⟨bound, hb⟩ => hforward bound hb⟩,
    fun ⟨blocks, hb⟩ => (hback blocks hb).1⟩

/-- Runs and evaluations of a program with calls and loops, with the standard functions of the
host. -/
theorem run_iff_evaluate_sumOfSquares : ∃ p,
    compile .sumOfSquares (Host.standard.map fun f => ⟨f.name, f.minimum⟩) = .ok p ∧
    p.code.size < 0x8000000000000000 ∧ Proper .sumOfSquares ∧
    ∀ world e, (∃ blocks, runEnding (run p Host.standard.toArray blocks world) = some e) ↔
      ∃ bound, evaluationEnding (Tree.sumOfSquares.evaluate p.constants.toList
        Host.standard.toArray bound world) = some e := by
  obtain ⟨p, h, hfits⟩ := exists_compile .sumOfSquares
    (Host.standard.map fun f => ⟨f.name, f.minimum⟩)
    (fun p => p.code.size < 0x8000000000000000) (by decide +kernel)
  have hproper : Proper .sumOfSquares := ⟨by decide, by decide, by decide, by decide⟩
  exact ⟨p, h, hfits, hproper, fun world e =>
    (run_iff_evaluate h hfits hproper serves_standard world e).1⟩

end StackScript
