import StackScript.Proofs.Layout.CallSites
import StackScript.Proofs.Safety.Functions

/-!
# What parameters hold

The arguments of a call are evaluated from last to first, so the first is on top of the stack, and
missing arguments are pushed after them. Parameters are filled from the top: with fewer arguments
than parameters the first parameters are false, and the arguments go to the last ones. This is what
one would expect, each argument in its own parameter, exactly if no argument is missing or all of
them are false anyway.
-/

namespace StackScript

variable {name : Bytes} {d : Function} {vars : List Bytes} {args : List Cell} {a b count m : Nat}
  {s : State}

/-- The values that the parameters of a function get in a call with the given arguments. -/
def passed (count : Nat) (args : List Cell) : List Cell :=
  List.replicate (count - args.length) (some (.boolean false)) ++ args

/-- The values that one would expect: each parameter its argument, and false without one. -/
def expected (count : Nat) (args : List Cell) : List Cell :=
  args ++ List.replicate (count - args.length) (some (.boolean false))

/-- Padding in front and behind are the same only if all is padding. -/
theorem replicate_append_comm_iff {α : Type} {x : α} {n : Nat} {xs : List α} :
    List.replicate (n + 1) x ++ xs = xs ++ List.replicate (n + 1) x ↔ ∀ y ∈ xs, y = x := by
  induction xs with
  | nil => simp
  | cons y xs ih =>
    rw [List.replicate_succ, List.cons_append, List.cons_append, List.cons.injEq,
      List.forall_mem_cons, eq_comm, ← ih]
    refine and_congr_right fun h => ?_
    subst h
    rw [← List.singleton_append (l := xs), ← List.append_assoc, ← List.replicate_succ']
    exact Iff.rfl

/-- When arguments are passed as expected. -/
theorem passed_eq_expected_iff (h : args.length ≤ count) :
    passed count args = expected count args ↔
      args.length = count ∨ ∀ v ∈ args, v = some (.boolean false) := by
  unfold passed expected
  rcases Nat.eq_or_lt_of_le h with he | hlt
  · simp [he]
  · obtain ⟨n, hn⟩ : ∃ n, count - args.length = n + 1 := ⟨count - args.length - 1, by omega⟩
    rw [hn, replicate_append_comm_iff]
    exact ⟨.inr, fun h => h.resolve_left (Nat.ne_of_lt hlt)⟩

/-- Arguments were evaluated from last to first, each by steps through its own code, which left its
value on the stack and changed nothing else but the world. -/
def Evaluated (L : Layout) (hosts : Array HostFunction) (vars : List Bytes) :
    List (Expr Cell) → List Cell → State → State → Prop
  | [], [], s, s' => s' = s
  | e :: es, v :: vs, s, s' =>
    ∃ m b n w, Evaluated L hosts vars es vs s m ∧ e.At L vars m.place b ∧
      Steps L.program hosts n m s' ∧ s' = ⟨b, v :: m.stack, m.frame, m.callers, w⟩
  | _, _, _, _ => False

/-- A run that begins in state `s` and leaves the code of arguments, between `a` and `m`, has come
to its end with the arguments evaluated. -/
def EvaluatesAll (L : Layout) (hosts : Array HostFunction) (vars : List Bytes)
    (args : List (Expr Cell)) (a m : Nat) (s : State) : Prop :=
  ∀ n q, Steps L.program hosts n s q → ¬ Running s.callers.length a m q →
    ∃ vs r k, k ≤ n ∧ Steps L.program hosts k s r ∧ Evaluated L hosts vars args vs s r ∧
      r.place = m ∧ Steps L.program hosts (n - k) r q

/-- A function's body starts with values in its parameters, which have the first slots, and with the
stack of its caller, which goes on at `b` with its own frame when the function returns. -/
structure BodyStarts (L : Layout) (d : Function) (values : List Cell) (b : Nat) (s s' : State) :
    Prop where
  place : s'.place = L.entry d.name + 1 + d.params.length
  parameters : ∀ i, i < d.params.length → s'.frame[i]? = values[i]?
  stack : s'.stack = s.stack
  callers : s'.callers = ⟨b, some s.frame⟩ :: s.callers

/-- As many are passed as there are parameters. -/
theorem passed_length (h : args.length ≤ count) : (passed count args).length = count := by
  rw [passed, List.length_append, List.length_replicate]
  omega

/-- The body starts as one would expect exactly if no argument is missing or all are false. -/
theorem BodyStarts.expected_iff {L : Layout} {vs : List Cell} {s' : State}
    (h : BodyStarts L d (passed d.params.length vs) b s s') (hle : vs.length ≤ d.params.length) :
    BodyStarts L d (expected d.params.length vs) b s s' ↔
      vs.length = d.params.length ∨ ∀ v ∈ vs, v = some (.boolean false) := by
  rw [← passed_eq_expected_iff hle]
  refine ⟨fun he => List.ext_getElem? fun i => ?_, fun he => he ▸ h⟩
  by_cases hi : i < d.params.length
  · rw [← h.parameters i hi, he.parameters i hi]
  · have hlength : (expected d.params.length vs).length = d.params.length := by
      rw [expected, List.length_append, List.length_replicate]
      omega
    rw [List.getElem?_eq_none (by rw [passed_length hle]; omega),
      List.getElem?_eq_none (by rw [hlength]; omega)]

section

variable {t : Tree Cell} {imports : List Import} {L : Layout} {hosts : Array HostFunction}
  {strict : Prop} {n : Nat} {es : List (Expr Cell)} {vs : List Cell} {r : State}

/-- What is reached is reached by steps. -/
theorem Leads.with_steps {p : Program} {good post : State → Prop}
    (h : Leads p hosts strict good n s post) :
    Leads p hosts strict good n s fun s' => post s' ∧ ∃ m, Steps p hosts m s s' := by
  rcases h with ⟨m, s', hs, hpost⟩ | h | h
  · exact .inl ⟨m, s', hs, hpost, m, hs.steps⟩
  · exact .inr (.inl h)
  · exact .inr (.inr h)

/-- Arguments that were evaluated are on the stack, and no activation is different. -/
theorem Evaluated.kept (h : Evaluated L hosts vars es vs s r) :
    vs.length = es.length ∧ r.stack = vs ++ s.stack ∧ r.frame = s.frame ∧
      r.callers = s.callers := by
  induction es generalizing vs r with
  | nil =>
    cases vs with
    | nil =>
      obtain rfl := h
      exact ⟨rfl, rfl, rfl, rfl⟩
    | cons v vs => exact h.elim
  | cons e es ih =>
    cases vs with
    | nil => exact h.elim
    | cons v vs =>
      obtain ⟨q, b, n, w, hq, -, -, rfl⟩ := h
      obtain ⟨hlength, hstack, hframe, hcallers⟩ := ih hq
      exact ⟨congrArg Nat.succ hlength, congrArg (v :: ·) hstack, hframe, hcallers⟩

/-- The code of arguments evaluates them. -/
theorem Expr.ArgumentsAt.evaluated (hcalls : CallsLead L hosts False n)
    (h : Expr.ArgumentsAt L vars es a b) (hs : s.place = a) :
    Leads L.program hosts False (Running s.callers.length a b) n s fun s' =>
      ∃ vs, Evaluated L hosts vars es vs s s' ∧ s'.place = b := by
  induction es generalizing b with
  | nil =>
    obtain rfl := h
    exact .now ⟨[], rfl, hs⟩
  | cons e es ih =>
    obtain ⟨m, hes, he⟩ := h
    refine ((ih hes).widen (Nat.le_refl a) he.le).trans ?_
    rintro ⟨place, stack, frame, callers, w⟩ ⟨vs, hevaluated, rfl⟩
    obtain ⟨-, rfl, rfl, rfl⟩ := hevaluated.kept
    refine ((he.leads hcalls _ s.callers w False.elim).widen (Expr.ArgumentsAt.le hes)
      (Nat.le_refl b)).with_steps.imp ?_
    rintro _ ⟨⟨v, w', rfl⟩, k, hsteps⟩
    exact ⟨v :: vs, ⟨_, b, k, w', hevaluated, he, hsteps, rfl⟩, rfl⟩

/-- A run that begins at a call evaluates the arguments before all else. -/
theorem CallSite.evaluatesAll (hL : Compiled t imports L) (hsite : CallSite L vars name es a m b)
    (hs : s.place = a) : EvaluatesAll L hosts vars es a m s := by
  intro n q hsteps hq
  have hleads : ∀ n, Leads L.program hosts False (Running s.callers.length a m) n s _ := fun n =>
    hsite.arguments.evaluated (hL.callsLead False.elim False.elim n) hs
  obtain ⟨k, r, hk, hr, ⟨vs, hevaluated, hplace⟩, hrest⟩ := Leads.passes hleads hsteps hq
  exact ⟨vs, r, k, hk, hr, hevaluated, hplace, hrest⟩

/-- A call passes at most as many arguments as there are parameters. -/
theorem CallSite.length_le (hsite : CallSite L vars name es a m b)
    (hd : functionNamed? L.functions name = some d) : es.length ≤ d.params.length := by
  have hcall := hsite.call
  unfold Layout.CallAt at hcall
  rw [hd] at hcall
  exact hcall.1

/-- Arguments that were evaluated go to the function that is called: its body starts, unless its
frame is too large. -/
theorem CallSite.enters (hL : Compiled t imports L) (hd : functionNamed? t.functions name = some d)
    (hnodup : d.params.Nodup) (hsite : CallSite L vars name es a m b)
    (h : Evaluated L hosts vars es vs s r) (hr : r.place = m) :
    ∃ k s', Steps L.program hosts k r s' ∧
      if d.params.length + d.body.slotCount ≤ maxCells then
        BodyStarts L d (passed d.params.length vs) b s s'
      else L.program.next hosts s' =
        some (.error (.frameTooLarge (d.params.length + d.body.slotCount)) s') := by
  rw [← hL.functions] at hd
  obtain ⟨-, vars', stop, e, l, hprologue, -⟩ := hL.function_at hd
  have hname : d.name = name := (functionNamed?_eq_some hd).2
  have hle := hsite.length_le hd
  obtain ⟨place, stack, frame, callers, w⟩ := r
  obtain ⟨hlength, rfl, rfl, rfl⟩ := h.kept
  obtain rfl : place = m := hr
  have hcall : Steps L.program hosts _ ⟨place, vs ++ s.stack, s.frame, s.callers, w⟩ _ :=
    (hsite.call.steps hL.constant hd hprologue.2.2.1.lt vs).steps
  rw [← hlength] at hcall hle
  have hargs := passed_length hle
  rw [← hprologue.2.1]
  split
  case isTrue hmax =>
    refine ⟨_, _, hcall.trans (hprologue.steps hmax hargs).steps, ?_⟩
    exact
      { place := by rw [hname]
        parameters := fun i hi => boundFrame_parameter hprologue.1 hnodup hargs hi
        stack := rfl
        callers := rfl }
  case isFalse hmax => exact ⟨_, _, hcall, hprologue.next_error hmax⟩

end

/-- Argument passing. Every call of a function with distinct parameters has code. A run that begins
there, in whatever state, evaluates the arguments before it does anything else. Once they are
evaluated it starts the body of the function, with the stack as it was before them and with the
`passed` values in the parameters, whatever happens later; only a function whose frame is too large
fails instead, and always. The values are those one would `expect`, each argument in its own
parameter and false in the rest, exactly if no argument is missing or all are false. -/
theorem parameters_bound {t : Tree Cell} {imports : List Import} {p : Program}
    (hosts : Array HostFunction) (h : compile t imports = .ok p)
    (hfits : p.code.size < 0x8000000000000000) :
    ∃ L : Layout, L.program = p ∧ Compiled t imports L ∧
      ∀ name args d, (name, args) ∈ t.calls → functionNamed? t.functions name = some d →
        d.params.Nodup →
        (∃ vars a m b, CallSite L vars name args a m b) ∧
        ∀ vars a m b, CallSite L vars name args a m b → ∀ s : State, s.place = a →
          EvaluatesAll L hosts vars args a m s ∧
          ∀ vs r, Evaluated L hosts vars args vs s r → r.place = m →
            ∃ k s', Steps p hosts k r s' ∧
              if d.params.length + d.body.slotCount ≤ maxCells then
                BodyStarts L d (passed d.params.length vs) b s s' ∧
                (BodyStarts L d (expected d.params.length vs) b s s' ↔
                  args.length = d.params.length ∨ ∀ v ∈ vs, v = some (.boolean false))
              else p.next hosts s' =
                some (.error (.frameTooLarge (d.params.length + d.body.slotCount)) s') := by
  obtain ⟨L, rfl, hL⟩ := compile_layout h hfits
  refine ⟨L, rfl, hL, fun name args d hcall hd hnodup => ⟨hL.hasSite hcall, ?_⟩⟩
  intro vars a m b hsite s hs
  refine ⟨hsite.evaluatesAll hL hs, fun vs r hevaluated hr => ?_⟩
  obtain ⟨k, s', hsteps, henters⟩ := hsite.enters hL hd hnodup hevaluated hr
  refine ⟨k, s', hsteps, ?_⟩
  split at henters
  case isTrue hmax =>
    rw [if_pos hmax]
    have hle := hsite.length_le (hL.functions ▸ hd)
    rw [← hevaluated.kept.1] at hle ⊢
    exact ⟨henters, henters.expected_iff hle⟩
  case isFalse hmax => rwa [if_neg hmax]

/-- A call with one argument of a function with two parameters, which gives back the first. -/
def Tree.shortCall : Tree Cell :=
  ⟨{}, [.define {} "f" ["a", "b"] (.giveBack {} (.load {} "a")),
    .giveBack {} (.call {} "f" [.literal {} (some (.integer 7))])]⟩

/-- A call with too few arguments has code. A run that comes there evaluates the argument, and then
starts the body of the function with two values. -/
theorem parameters_bound_shortCall : ∃ p L, compile .shortCall [] = .ok p ∧ L.program = p ∧
    ∃ d vars a m b, functionNamed? Tree.shortCall.functions "f" = some d ∧ d.params.Nodup ∧
      CallSite L vars "f" [.literal {} (some (.integer 7))] a m b ∧
      ∀ s, s.place = a → EvaluatesAll L #[] vars [.literal {} (some (.integer 7))] a m s ∧
        ∀ vs r, Evaluated L #[] vars [.literal {} (some (.integer 7))] vs s r → r.place = m →
          ∃ k s', Steps p #[] k r s' ∧ BodyStarts L d (passed 2 vs) b s s' := by
  obtain ⟨p, h, hfits⟩ := exists_compile .shortCall []
    (fun p => p.code.size < 0x8000000000000000) (by decide +kernel)
  obtain ⟨L, hp, -, hcalls⟩ := parameters_bound #[] h hfits
  obtain ⟨⟨vars, a, m, b, hsite⟩, hruns⟩ := hcalls "f" [.literal {} (some (.integer 7))] _
    (.head _) rfl (by decide)
  refine ⟨p, L, h, hp, _, vars, a, m, b, rfl, by decide, hsite, fun s hs => ?_⟩
  obtain ⟨hevaluates, hstarts⟩ := hruns vars a m b hsite s hs
  refine ⟨hevaluates, fun vs r hevaluated hr => ?_⟩
  obtain ⟨k, s', hsteps, hstart⟩ := hstarts vs r hevaluated hr
  rw [if_pos (by decide)] at hstart
  exact ⟨k, s', hsteps, hstart.1⟩

/-- The run of the program comes in eight steps to the body of the function, behind the allocation
of the frame at place 2 and two stores. The first parameter is false then, and the second has the
argument. -/
theorem shortCall_misplaces : ∃ p, compile .shortCall [] = .ok p ∧
    ∃ s, Steps p #[] 8 (State.start p.code.size {}) s ∧ s.place = 5 ∧
      s.frame = #[some (.boolean false), some (.integer 7)] :=
  exists_compile .shortCall [] _ (by decide +kernel)

end StackScript
