import StackScript.Proofs.Link.Places

/-!
# Calls against their signatures

Linking calls fails for the first call that does not suit the function it names, with the first of
the tests that this call fails. Otherwise each instruction becomes a piece of code of its own,
whatever stands around it: a call of a function of the program is padded, a call of a function of
the host becomes a host call that holds its arguments and its index, and a return directly in front
of another one is dropped. So no two returns are adjacent in what is linked, and no call of a
function of the host is left.
-/

namespace StackScript

variable {code here out rest : List Instruction}

/-- A call that cannot be linked: it names no function, or it passes too few arguments, more than
any call can pass, or more than a function of the program declares. -/
def Instruction.Offends (symbols : Symbols) (i : Instruction) : Prop :=
  symbols.function? i.callee = none ∨
    ∃ f, symbols.function? i.callee = some f ∧
      (i.argc < f.minimum ∨ 1023 < i.argc ∨ f.isHost = false ∧ f.declared < i.argc)

/-- The fault of a call that cannot be linked. A call that fails several tests has the fault of the
first. -/
inductive CallFault (symbols : Symbols) (i : Instruction) : LinkError → Prop
  | unknown : symbols.function? i.callee = none → CallFault symbols i (.functionNotFound i.callee)
  | tooFew {f : Signature} : symbols.function? i.callee = some f → i.argc < f.minimum →
      CallFault symbols i (.tooFewArguments i.callee f.minimum i.argc)
  | limit {f : Signature} : symbols.function? i.callee = some f → f.minimum ≤ i.argc →
      1023 < i.argc → CallFault symbols i (.argumentLimit i.callee i.argc)
  | tooMany {f : Signature} : symbols.function? i.callee = some f → f.minimum ≤ i.argc →
      i.argc ≤ 1023 → f.isHost = false → f.declared < i.argc →
      CallFault symbols i (.tooManyArguments i.callee f.declared i.argc)

/-- What an instruction becomes when calls are linked; `next` is the instruction behind it. -/
inductive Becomes (symbols : Symbols) (i : Instruction) (next : Option Instruction) :
    List Instruction → Prop
  | user {f : Signature} : i.op = .call → symbols.function? i.callee = some f → f.isHost = false →
      Becomes symbols i next
        (List.replicate (f.declared - i.argc).toNat { op := .constant, operand := 0 } ++
          [{ i with argc := f.declared }])
  | host {f : Signature} {operand : UInt64} : i.op = .call →
      symbols.function? i.callee = some f → f.isHost = true →
      (f.dispatch < 0x400000 → ((HostCall.unpack operand).argc : Int) = i.argc ∧
        (HostCall.unpack operand).index = f.dispatch) →
      Becomes symbols i next [{ i with op := .callHost, operand, target := [] }]
  | dropped {j : Instruction} : i.op = .ret → next = some j → j.op = .ret →
      Becomes symbols i next []
  | kept : i.op ≠ .call → (i.op = .ret → ∀ j, next = some j → j.op ≠ .ret) →
      Becomes symbols i next [i]

/-- Code is linked to a concatenation of pieces, one for each of its instructions. -/
def BecomesPieces (symbols : Symbols) (code out : List Instruction) : Prop :=
  ∃ pieces : List (List Instruction), out = pieces.flatten ∧ pieces.length = code.length ∧
    ∀ m i, code[m]? = some i → ∃ piece, pieces[m]? = some piece ∧
      Becomes symbols i code[m + 1]? piece

section

variable {symbols : Symbols} {i : Instruction} {e : LinkError}

/-! ## One call -/

/-- The signature that is found under a name has that name. -/
theorem Symbols.name_of_function? {name : Bytes} {f : Signature}
    (h : symbols.function? name = some f) : f.name = name := by
  have hname := List.find?_some h
  simpa using hname

/-- A call is refused with its fault. -/
theorem linkCall_error_iff : linkCall symbols i = .error e ↔ CallFault symbols i e := by
  constructor
  · intro h
    unfold linkCall at h
    split at h
    · rename_i hnone
      cases h
      exact .unknown hnone
    · rename_i f hf
      -- Errors tell the name in the signature, which is the one that was looked up.
      have hname := Symbols.name_of_function? hf
      split at h
      · rename_i hfew
        cases h
        rw [hname]
        exact .tooFew hf hfew
      · rename_i hfew
        have hmin : f.minimum ≤ i.argc := Int.not_lt.mp hfew
        split at h
        · rename_i hlimit
          cases h
          rw [hname]
          exact .limit hf hmin hlimit
        · rename_i hlimit
          split at h
          · cases h
          · rename_i hhost
            split at h
            · rename_i hmany
              cases h
              rw [hname]
              exact .tooMany hf hmin (Int.not_lt.mp hlimit) (by simpa using hhost) hmany
            · cases h
  · intro h
    unfold linkCall
    cases h with
    | unknown hnone => rw [hnone]
    | tooFew hf hfew =>
      rw [hf]
      simp only [if_pos hfew, Symbols.name_of_function? hf]
    | limit hf hmin hlimit =>
      rw [hf]
      have hlimit : (HostCall.maxArguments : Int) < i.argc := hlimit
      simp only [if_neg (Int.not_lt.mpr hmin), if_pos hlimit, Symbols.name_of_function? hf]
    | tooMany hf hmin hlimit hhost hmany =>
      rw [hf]
      have hlimit : ¬ (HostCall.maxArguments : Int) < i.argc := Int.not_lt.mpr hlimit
      simp only [if_neg (Int.not_lt.mpr hmin), if_neg hlimit, hhost, Bool.false_eq_true, if_false,
        if_pos hmany, Symbols.name_of_function? hf]

/-- The calls that cannot be linked are those with a fault. -/
theorem Instruction.offends_iff : i.Offends symbols ↔ ∃ e, CallFault symbols i e := by
  constructor
  · rintro (hnone | ⟨f, hf, htests⟩)
    · exact ⟨_, .unknown hnone⟩
    · -- The tests are made in order, so an earlier one that fails gives the fault.
      by_cases hfew : i.argc < f.minimum
      · exact ⟨_, .tooFew hf hfew⟩
      by_cases hlimit : 1023 < i.argc
      · exact ⟨_, .limit hf (Int.not_lt.mp hfew) hlimit⟩
      obtain ⟨hhost, hmany⟩ := (htests.resolve_left hfew).resolve_left hlimit
      exact ⟨_, .tooMany hf (Int.not_lt.mp hfew) (Int.not_lt.mp hlimit) hhost hmany⟩
  · rintro ⟨e, hnone | ⟨hf, hfew⟩ | ⟨hf, -, hlimit⟩ | ⟨hf, -, -, hhost, hmany⟩⟩
    · exact .inl hnone
    · exact .inr ⟨_, hf, .inl hfew⟩
    · exact .inr ⟨_, hf, .inr (.inl hlimit)⟩
    · exact .inr ⟨_, hf, .inr (.inr ⟨hhost, hmany⟩)⟩

/-- A call that can be linked becomes what it should. -/
theorem linkCall_becomes (h : linkCall symbols i = .ok here) (hcall : i.op = .call)
    (hargc : 0 ≤ i.argc) (next : Option Instruction) : Becomes symbols i next here := by
  obtain ⟨f, hf, -, hlimit, ⟨hhost, rfl⟩ | ⟨hhost, -, rfl⟩⟩ := linkCall_eq_ok h
  · refine .host hcall hf hhost fun hdispatch => ?_
    obtain ⟨k, hk⟩ := Int.eq_ofNat_of_zero_le hargc
    rw [hk] at hlimit ⊢
    rw [HostCall.unpack_pack (Int.ofNat_le.mp hlimit), Nat.mod_eq_of_lt hdispatch]
    exact ⟨rfl, rfl⟩
  · exact .user hcall hf hhost

/-! ## The code of a program -/

/-- Code is refused for its first instruction, or for the rest. -/
theorem linkCalls_cons_error_iff :
    linkCalls symbols (i :: rest) = .error e ↔
      i.op = .call ∧ CallFault symbols i e ∨
        (i.op = .call → ¬ i.Offends symbols) ∧ linkCalls symbols rest = .error e := by
  rw [linkCalls]
  by_cases hcall : i.op = .call
  · rw [if_pos hcall, ← linkCall_error_iff, Instruction.offends_iff]
    simp only [← linkCall_error_iff, hcall, true_and, forall_const]
    cases linkCall symbols i with
    | error e' => simp [bind, Except.bind]
    | ok here => cases linkCalls symbols rest <;> simp [bind, Except.bind, pure, Except.pure]
  · rw [if_neg hcall]
    simp only [hcall, false_and, false_or, false_implies, true_and]
    split
    · rfl
    · cases linkCalls symbols rest <;> simp [bind, Except.bind, pure, Except.pure]

/-- Code is refused for its first call that cannot be linked. -/
theorem linkCalls_error_iff :
    linkCalls symbols code = .error e ↔
      ∃ before i after, code = before ++ i :: after ∧
        (∀ j ∈ before, j.op = .call → ¬ j.Offends symbols) ∧ i.op = .call ∧
        CallFault symbols i e := by
  induction code with
  | nil =>
    constructor
    · intro h
      cases h
    · rintro ⟨before, i, after, hcode, -⟩
      simp at hcode
  | cons x rest ih =>
    rw [linkCalls_cons_error_iff, ih]
    constructor
    · rintro (⟨hcall, hfault⟩ | ⟨hx, before, i, after, rfl, hbefore, hcall, hfault⟩)
      · exact ⟨[], x, rest, rfl, List.forall_mem_nil _, hcall, hfault⟩
      · exact ⟨x :: before, i, after, rfl, List.forall_mem_cons.mpr ⟨hx, hbefore⟩, hcall, hfault⟩
    · rintro ⟨before, i, after, hcode, hbefore, hcall, hfault⟩
      cases before with
      | nil =>
        obtain ⟨rfl, rfl⟩ := List.cons_eq_cons.mp hcode
        exact .inl ⟨hcall, hfault⟩
      | cons y before =>
        obtain ⟨rfl, rfl⟩ := List.cons_eq_cons.mp hcode
        obtain ⟨hx, hbefore⟩ := List.forall_mem_cons.mp hbefore
        exact .inr ⟨hx, before, i, after, rfl, hbefore, hcall, hfault⟩

/-- The head of linked code in terms of the instruction that it comes from. -/
theorem linkedHead_becomes (hargc : i.op = .call → 0 ≤ i.argc)
    (hcall : i.op = .call → linkCall symbols i = .ok (linkedHead symbols (i :: rest))) :
    Becomes symbols i rest.head? (linkedHead symbols (i :: rest)) := by
  by_cases hop : i.op = .call
  · exact linkCall_becomes (hcall hop) hop (hargc hop) _
  · simp only [linkedHead, if_neg hop]
    cases rest with
    | nil =>
      simp only [startsWithReturn, Bool.and_false, Bool.false_eq_true, if_false]
      exact .kept hop fun _ j hj => by cases hj
    | cons j rest =>
      simp only [startsWithReturn, Bool.and_eq_true, decide_eq_true_eq, beq_iff_eq]
      split
      · rename_i hret
        exact .dropped hret.1 rfl hret.2
      · rename_i hret
        refine .kept hop fun hi k hk hkret => hret ⟨hi, ?_⟩
        cases hk
        exact hkret

/-- Linked code is made of pieces. -/
theorem linkCalls_pieces (h : linkCalls symbols code = .ok out)
    (hargc : ∀ i ∈ code, i.op = .call → 0 ≤ i.argc) : BecomesPieces symbols code out := by
  induction code generalizing out with
  | nil =>
    cases h
    exact ⟨[], rfl, rfl, fun m i hi => by cases hi⟩
  | cons i rest ih =>
    obtain ⟨there, hthere, rfl, hcall⟩ := linkCalls_cons h
    obtain ⟨hi, hrest⟩ := List.forall_mem_cons.mp hargc
    obtain ⟨pieces, rfl, hlength, hpieces⟩ := ih hthere hrest
    refine ⟨linkedHead symbols (i :: rest) :: pieces, rfl, congrArg (· + 1) hlength, ?_⟩
    intro m x hx
    cases m with
    | zero =>
      cases hx
      refine ⟨_, rfl, ?_⟩
      rw [List.getElem?_cons_succ, ← List.head?_eq_getElem?]
      exact linkedHead_becomes hi hcall
    | succ m => exact hpieces m x hx

/-- What a call becomes is some code, without returns. -/
theorem linkCall_no_return (h : linkCall symbols i = .ok here) (hcall : i.op = .call) :
    here ≠ [] ∧ ∀ x ∈ here, x.op ≠ .ret := by
  obtain ⟨f, -, -, -, ⟨-, rfl⟩ | ⟨-, -, rfl⟩⟩ := linkCall_eq_ok h
  · simp
  · refine ⟨by simp, fun x hx => ?_⟩
    rcases List.mem_append.mp hx with hx | hx
    · rw [List.eq_of_mem_replicate hx]
      decide
    · rw [List.mem_singleton.mp hx]
      change i.op ≠ .ret
      rw [hcall]
      decide

/-- Only code that begins with a return is linked to such code. -/
theorem startsWithReturn_of_linkCalls (h : linkCalls symbols code = .ok out) {x : Instruction}
    (hx : out.head? = some x) (hret : x.op = .ret) : startsWithReturn code = true := by
  cases code with
  | nil =>
    cases h
    cases hx
  | cons i rest =>
    obtain ⟨there, -, rfl, hcall⟩ := linkCalls_cons h
    by_cases hop : i.op = .call
    · obtain ⟨hsome, hno⟩ := linkCall_no_return (hcall hop) hop
      rw [List.head?_append_of_ne_nil _ hsome] at hx
      exact absurd hret (hno x (List.mem_of_head? hx))
    · by_cases hi : i.op = .ret
      · simp [startsWithReturn, hi]
      · have hhead : linkedHead symbols (i :: rest) = [i] := by simp [linkedHead, hop, hi]
        rw [hhead] at hx
        cases hx
        exact absurd hret hi

/-- No two returns are adjacent in linked code. -/
theorem linkCalls_returns (h : linkCalls symbols code = .ok out) :
    out.IsChain fun x y => x.op = .ret → y.op ≠ .ret := by
  induction code generalizing out with
  | nil =>
    cases h
    exact .nil
  | cons i rest ih =>
    obtain ⟨there, hthere, rfl, hcall⟩ := linkCalls_cons h
    rw [List.isChain_append]
    by_cases hop : i.op = .call
    · obtain ⟨-, hno⟩ := linkCall_no_return (hcall hop) hop
      refine ⟨?_, ih hthere, fun x hx y _ hret => absurd hret (hno x (List.mem_of_getLast? hx))⟩
      exact List.isChain_iff_getElem.mpr fun k hk hret => absurd hret (hno _ (List.getElem_mem _))
    · simp only [linkedHead, if_neg hop]
      split
      · exact ⟨.nil, ih hthere, fun x hx => by cases hx⟩
      · rename_i hnot
        refine ⟨.singleton i, ih hthere, fun x hx y hy hret hyret => hnot ?_⟩
        -- A return that is kept has none behind it, and none comes there by linking.
        obtain rfl : i = x := Option.some.inj hx
        simp [hret, startsWithReturn_of_linkCalls hthere hy hyret]

/-- The calls of linked code are calls of functions of the program. -/
theorem linkCalls_no_host (h : linkCalls symbols code = .ok out) :
    ∀ x ∈ out, x.op = .call → ∀ f, symbols.function? x.callee = some f → f.isHost = false := by
  induction code generalizing out with
  | nil =>
    cases h
    exact List.forall_mem_nil _
  | cons i rest ih =>
    obtain ⟨there, hthere, rfl, hcall⟩ := linkCalls_cons h
    intro x hx hxcall f hf
    rcases List.mem_append.mp hx with hx | hx
    · by_cases hop : i.op = .call
      · obtain ⟨g, hg, -, -, ⟨-, hhere⟩ | ⟨huser, -, hhere⟩⟩ := linkCall_eq_ok (hcall hop)
        · rw [hhere, List.mem_singleton] at hx
          rw [hx] at hxcall
          cases hxcall
        · rw [hhere] at hx
          rcases List.mem_append.mp hx with hx | hx
          · rw [List.eq_of_mem_replicate hx] at hxcall
            cases hxcall
          · rw [List.mem_singleton.mp hx] at hf
            rw [Option.some.inj (hf.symm.trans hg)]
            exact huser
      · simp only [linkedHead, if_neg hop] at hx
        split at hx
        · cases hx
        · rw [List.mem_singleton.mp hx] at hxcall
          exact absurd hxcall hop
    · exact ih hthere x hx hxcall f hf

end

/-- Linking calls fails exactly if some call cannot be linked, and then with the fault of the first
such call. Otherwise it gives the pieces that the instructions become, one after another, in which
no two returns are adjacent and no call of a function of the host is left. -/
theorem linkCalls_checks_and_expands (symbols : Symbols) (code : List Instruction)
    (hargc : ∀ i ∈ code, i.op = .call → 0 ≤ i.argc) :
    ((∃ e, linkCalls symbols code = .error e) ↔
      ∃ i ∈ code, i.op = .call ∧ i.Offends symbols) ∧
    (∀ e, linkCalls symbols code = .error e →
      ∃ before i after, code = before ++ i :: after ∧
        (∀ j ∈ before, j.op = .call → ¬ j.Offends symbols) ∧ i.op = .call ∧
        CallFault symbols i e) ∧
    ∀ out, linkCalls symbols code = .ok out →
      BecomesPieces symbols code out ∧
      (out.IsChain fun x y => x.op = .ret → y.op ≠ .ret) ∧
      ∀ x ∈ out, x.op = .call → ∀ f, symbols.function? x.callee = some f → f.isHost = false := by
  refine ⟨⟨?_, ?_⟩, fun e h => linkCalls_error_iff.mp h, fun out h => ?_⟩
  · rintro ⟨e, h⟩
    obtain ⟨before, i, after, rfl, -, hcall, hfault⟩ := linkCalls_error_iff.mp h
    exact ⟨i, by simp, hcall, Instruction.offends_iff.mpr ⟨e, hfault⟩⟩
  · rintro ⟨i, hi, hcall, hoffends⟩
    cases h : linkCalls symbols code with
    | error e => exact ⟨e, rfl⟩
    | ok out =>
      -- Every call of code that is linked was linked by itself.
      obtain ⟨a, ha⟩ := List.mem_iff_getElem?.mp hi
      obtain ⟨e, hfault⟩ := Instruction.offends_iff.mp hoffends
      cases ((linkCalls_at h ha).1 hcall).symm.trans (linkCall_error_iff.mpr hfault)
  · exact ⟨linkCalls_pieces h hargc, linkCalls_returns h, linkCalls_no_host h⟩

/-- A function of the program with two parameters, and one of the host that needs an argument. -/
def Symbols.oneOfEach : Symbols :=
  { functions := [⟨"f", 2, 0, 0⟩, ⟨"n", hostArity, 1, 1⟩] }

/-- A call with an argument too few, which has a label, a host call, and two returns. -/
def assortedCalls : List Instruction :=
  [{ op := .call, label := "here", target := "<f>", callee := "f", argc := 1 },
    { op := .call, target := "<n>", callee := "n", argc := 3 }, { op := .ret }, { op := .ret }]

/-- A call with no argument of a function that needs one, and a call of no function at all. -/
def offendingCalls : List Instruction :=
  [{ op := .call, callee := "n", argc := 0 }, { op := .call, callee := "g", argc := 0 }]

/-- The calls of a stream are linked. If calls that cannot be linked stand behind them, the fault is
that of the first. -/
theorem linkCalls_checks_and_expands_assorted :
    (∃ out, linkCalls .oneOfEach assortedCalls = .ok out ∧ out.length = 4 ∧
      BecomesPieces .oneOfEach assortedCalls out) ∧
    ∃ e, linkCalls .oneOfEach (assortedCalls ++ offendingCalls) = .error e ∧
      e = .tooFewArguments "n" 1 0 ∧
      ∃ before i after, assortedCalls ++ offendingCalls = before ++ i :: after ∧
        (∀ j ∈ before, j.op = .call → ¬ j.Offends .oneOfEach) ∧ CallFault .oneOfEach i e := by
  constructor
  · obtain ⟨-, -, hlinked⟩ :=
      linkCalls_checks_and_expands .oneOfEach assortedCalls (by decide +kernel)
    exact ⟨_, rfl, rfl, (hlinked _ rfl).1⟩
  · obtain ⟨-, hfirst, -⟩ := linkCalls_checks_and_expands .oneOfEach
      (assortedCalls ++ offendingCalls) (by decide +kernel)
    obtain ⟨before, i, after, hsplit, hbefore, -, hfault⟩ := hfirst _ rfl
    exact ⟨_, rfl, rfl, before, i, after, hsplit, hbefore, hfault⟩

end StackScript
