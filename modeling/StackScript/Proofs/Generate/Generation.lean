import StackScript.Proofs.Generate.Emission
import StackScript.Proofs.Tree.Loads
import StackScript.Proofs.Value.Entries

/-!
# Generation appends what the relations say

A generator that succeeds has extended the compilation: instructions were appended, the constants
that its part of the tree loads were entered in order and nothing else, and the loops and the outer
functions are as they were (`Advances`). Here this is proved of every generator, together with the
relation of the appended instructions to the tree. The proofs take a generator apart with
`bind_eq_ok` and put the extensions of its parts together with `Advances.trans`. The arguments that
calls leave out are loaded as false only when calls are linked, but false is in every pool.
-/

namespace StackScript

open Generate Instruction

variable {label name x : Bytes} {c c' d : Compilation} {fs fs₁ fs₂ : List Function}
  {code code₁ code₂ : List Instruction} {k : Nat} {op : Opcode} {ρ σ τ : Progress}
  {body : Stmt Cell} {s t : Symbols} {functions : List Function} {vs vs₁ vs₂ : List Cell}

namespace Generate

/-- A sequence succeeds if its first part does and then its second. -/
theorem bind_eq_ok {x : Generate α} {f : α → Generate β} {b : β} :
    (x >>= f) c = .ok b c' ↔ ∃ a d, x c = .ok a d ∧ f a d = .ok b c' := by
  change EStateM.bind x f c = .ok b c' ↔ _
  unfold EStateM.bind
  cases hx : x c with
  | ok a d =>
    constructor
    · intro h
      exact ⟨a, d, rfl, h⟩
    · rintro ⟨_, _, h, h'⟩
      cases h
      exact h'
  | error e d =>
    constructor
    · intro h
      cases h
    · rintro ⟨_, _, h, _⟩
      cases h

/-- A position does not matter to a generator that succeeds. -/
theorem located_eq_ok {p : Position} {x : Generate α} {a : α} :
    located p x c = .ok a c' ↔ x c = .ok a c' := by
  unfold located
  cases x c <;> simp

/-- An operation on the symbols that succeeds changes nothing. -/
theorem lift_eq_ok {r : Except CompileFault α} {a : α} :
    lift r c = .ok a c' ↔ r = .ok a ∧ c = c' := by
  cases r with
  | ok b =>
    change EStateM.Result.ok b c = .ok a c' ↔ _
    simp
  | error f =>
    change EStateM.Result.error _ c = .ok a c' ↔ _
    simp

end Generate

namespace Compilation

/-- The variables of the innermost function in the order of their slots. -/
def slots (c : Compilation) : List Bytes :=
  match c.symbols.scopes with
  | scope :: _ => scope.slots.toList
  | [] => []

/-- The progress in the innermost function. -/
def progress (c : Compilation) : Progress := ⟨c.labels, c.slots⟩

/-- The label behind the innermost loop, in whatever function that loop is. -/
def stop (c : Compilation) : Option Bytes := c.symbols.loops.head?.map LoopLabels.stop

end Compilation

/-- The symbols after the functions of a list were defined. -/
def Symbols.defineAll (s : Symbols) (fs : List Function) : Symbols :=
  fs.foldl (fun s d => s.define d.name d.params.length 0) s

/-- What a definition does to the signatures depends on them only. -/
theorem Symbols.define_congr (h : s.functions = t.functions) (name : Bytes)
    (declared minimum : Int) :
    (s.define name declared minimum).functions = (t.define name declared minimum).functions := by
  unfold define function?
  rw [h]
  split <;> rfl

/-- A definition keeps the functions that are open. -/
theorem Symbols.define_scopes (s : Symbols) (name : Bytes) (declared minimum : Int) :
    (s.define name declared minimum).scopes = s.scopes := by
  unfold define
  split <;> rfl

/-- A definition keeps the loops that are open. -/
theorem Symbols.define_loops (s : Symbols) (name : Bytes) (declared minimum : Int) :
    (s.define name declared minimum).loops = s.loops := by
  unfold define
  split <;> rfl

/-- What definitions do to the signatures depends on them only. -/
theorem Symbols.defineAll_congr (h : s.functions = t.functions) (fs : List Function) :
    (s.defineAll fs).functions = (t.defineAll fs).functions := by
  induction fs generalizing s t with
  | nil => exact h
  | cons d fs ih => exact ih (define_congr h _ _ _)

/-- The second compilation extends the first: `code` is appended, the functions of `fs` are defined,
the constants of `vs` are entered, and the function that is open has come to the progress `τ`. -/
structure Advances (c c' : Compilation) (code : List Instruction) (fs : List Function)
    (vs : List Cell) (τ : Progress) : Prop where
  /-- The instructions are appended. -/
  code_eq : c'.code.toList = c.code.toList ++ code
  /-- The pool grows at its end. -/
  pool : c.pool.entries.toList <+: c'.pool.entries.toList
  /-- Each new entry of the pool has an instruction that pushes it. -/
  pool_size : c'.pool.entries.size ≤
    c.pool.entries.size + code.countP fun i => i.op == .constant
  /-- The constants are entered in order. -/
  entered : c.pool.Seeded → c'.pool = c.pool.addAll vs
  /-- The outer functions stay as they are. -/
  outer : c'.symbols.scopes.tail = c.symbols.scopes.tail
  /-- The loops stay as they are. -/
  loops : c'.symbols.loops = c.symbols.loops
  /-- The functions are defined in order. -/
  functions : c'.symbols.functions = (c.symbols.defineAll fs).functions
  /-- The progress afterwards. -/
  progress : c'.progress = τ

namespace Advances

/-- A compilation extends itself by nothing. -/
theorem refl (c : Compilation) : Advances c c [] [] [] c.progress where
  code_eq := by simp
  pool := List.prefix_rfl
  pool_size := by simp
  entered _ := rfl
  outer := rfl
  loops := rfl
  functions := rfl
  progress := rfl

/-- One extension after another. -/
theorem trans (h₁ : Advances c d code₁ fs₁ vs₁ ρ) (h₂ : Advances d c' code₂ fs₂ vs₂ τ) :
    Advances c c' (code₁ ++ code₂) (fs₁ ++ fs₂) (vs₁ ++ vs₂) τ where
  code_eq := by rw [h₂.code_eq, h₁.code_eq, List.append_assoc]
  pool := h₁.pool.trans h₂.pool
  pool_size := by
    have := h₁.pool_size
    have := h₂.pool_size
    rw [List.countP_append]
    omega
  entered hc := by
    rw [h₂.entered (hc.trans h₁.pool), h₁.entered hc, Pool.addAll_append]
  outer := h₂.outer.trans h₁.outer
  loops := h₂.loops.trans h₁.loops
  functions := by
    rw [h₂.functions, Symbols.defineAll_congr h₁.functions fs₂]
    unfold Symbols.defineAll
    rw [List.foldl_append]
  progress := h₂.progress

/-- One extension after another, of which the second makes no progress of its own. -/
theorem keep (h₁ : Advances c d code₁ fs₁ vs₁ ρ) (h₂ : Advances d c' code₂ fs₂ vs₂ d.progress) :
    Advances c c' (code₁ ++ code₂) (fs₁ ++ fs₂) (vs₁ ++ vs₂) ρ := by
  rw [h₁.progress] at h₂
  exact h₁.trans h₂

/-- One extension after another, of which the second only appends code. -/
theorem then_code (h₁ : Advances c d code₁ fs vs ρ) (h₂ : Advances d c' code₂ [] [] d.progress) :
    Advances c c' (code₁ ++ code₂) fs vs ρ := by
  simpa using h₁.keep h₂

/-- The constant false is in the pool for the arguments that a call leaves out. -/
theorem missing (h : Advances c c' code fs vs τ) (functions : List Function) (name : Bytes)
    (k : Nat) : Advances c c' code fs (vs ++ missingArguments functions name k) τ :=
  { h with
    entered hc := by
      have hc' : c'.pool.Seeded := hc.trans h.pool
      rw [Pool.addAll_append, ← h.entered hc]
      unfold missingArguments
      split
      · exact (hc'.addAll_false _).symm
      · rfl }

/-- The label behind the innermost loop stays the same. -/
theorem stop (h : Advances c c' code fs vs τ) : c'.stop = c.stop := by
  unfold Compilation.stop
  rw [h.loops]

/-- The slots afterwards are those of the progress. -/
theorem slots (h : Advances c c' code fs vs τ) : c'.slots = τ.slots :=
  congrArg Progress.slots h.progress

/-- The labels afterwards are those of the progress. -/
theorem labels (h : Advances c c' code fs vs τ) : c'.labels = τ.labels :=
  congrArg Progress.labels h.progress

end Advances

/-- Appending an instruction that pushes no constant. -/
theorem Generate.emit_advances (i : Instruction) (h : emit i c = .ok () c') :
    Advances c c' [i] [] [] c.progress := by
  obtain rfl : { c with code := c.code.push i } = c' := by cases h; rfl
  exact
    { code_eq := Array.toList_push
      pool := List.prefix_rfl
      pool_size := Nat.le_add_right _ _
      entered := fun _ => rfl
      outer := rfl
      loops := rfl
      functions := rfl
      progress := rfl }

/-- Appending a jump. -/
theorem Generate.emitJump_advances (h : emitJump op label c = .ok () c') :
    Advances c c' [jumpTo op label] [] [] c.progress :=
  emit_advances _ h

/-- Marking a place. -/
theorem Generate.mark_advances (h : mark label c = .ok () c') :
    Advances c c' [marker label] [] [] c.progress :=
  emit_advances _ h

/-- Appending an instruction with an operand. -/
theorem Generate.emitOperand_advances {n : Nat} (h : emitOperand op n c = .ok () c') :
    Advances c c' [on op n] [] [] c.progress :=
  emit_advances _ h

/-- A change of the symbols that keeps the loops and the outer functions. -/
theorem Advances.of_symbols {symbols : Symbols}
    (houter : symbols.scopes.tail = c.symbols.scopes.tail)
    (hloops : symbols.loops = c.symbols.loops)
    (hfunctions : symbols.functions = (c.symbols.defineAll fs).functions)
    (hprogress : { c with symbols }.progress = τ) : Advances c { c with symbols } [] fs [] τ where
  code_eq := (List.append_nil _).symm
  pool := List.prefix_rfl
  pool_size := Nat.le_refl _
  entered _ := rfl
  outer := houter
  loops := hloops
  functions := hfunctions
  progress := hprogress

/-- Making a label. -/
theorem Generate.newLabel_advances {word : Bytes} (h : newLabel word c = .ok label c')
    (hσ : c.progress = σ) :
    label = generatedLabel (σ.labels + 1) word ∧ Advances c c' [] [] [] (σ.label 1) := by
  obtain ⟨rfl, rfl⟩ : generatedLabel (c.labels + 1) word = label ∧
      { c with labels := c.labels + 1 } = c' := by
    cases h
    exact ⟨rfl, rfl⟩
  subst hσ
  exact ⟨rfl,
    { code_eq := (List.append_nil _).symm
      pool := List.prefix_rfl
      pool_size := Nat.le_refl _
      entered := fun _ => rfl
      outer := rfl
      loops := rfl
      functions := rfl
      progress := rfl }⟩

/-- Entering a constant and pushing it. -/
theorem Generate.loadConstant_advances {v : Cell} (h : loadConstant v c = .ok () c') :
    ∃ k, Advances c c' [on .constant k] [] [v] c.progress ∧
      ∀ K, c'.pool.entries.toList <+: K → StandsFor K k v := by
  obtain rfl : { c with pool := (c.pool.add v).1
                        code := c.code.push (on .constant (c.pool.add v).2) } = c' := by
    cases h
    rfl
  refine ⟨(c.pool.add v).2, ?_, fun K hK => c.pool.standsFor_add v hK⟩
  obtain ⟨hpool, hsize⟩ := c.pool.add_growth v
  exact
    { code_eq := Array.toList_push
      pool := hpool
      pool_size := hsize
      entered := fun _ => rfl
      outer := rfl
      loops := rfl
      functions := rfl
      progress := rfl }

/-- The variables declared so far are those of the innermost scope. -/
theorem Compilation.slots_eq {scope : Scope} {rest : List Scope}
    (h : c.symbols.scopes = scope :: rest) : c.slots = scope.slots.toList := by
  unfold Compilation.slots
  rw [h]

/-- A variable that is found has the slot of its first declaration. -/
theorem Symbols.resolve_eq_ok (h : c.symbols.resolve x = .ok k) : slotOf c.slots x = some k := by
  unfold resolve at h
  split at h
  · rename_i scope rest hscopes
    have hfind : scope.slots.findIdx? (fun y => y == x) =
        scope.slots.toList.findIdx? fun y => y == x := by
      rw [← List.findIdx?_toArray, Array.toArray_toList]
    rw [hfind] at h
    rw [slotOf, Compilation.slots_eq hscopes]
    split at h
    · rename_i slot hslot
      cases h
      exact hslot
    · cases h
  · cases h

/-- Appending an instruction on the slot of a variable. -/
theorem Generate.emitSlot_advances (h : emitSlot op x c = .ok () c') :
    ∃ k, slotOf c.slots x = some k ∧ Advances c c' [on op k] [] [] c.progress := by
  obtain ⟨_, _, hget, h⟩ := bind_eq_ok.mp h
  cases hget
  obtain ⟨k, d, hlift, h⟩ := bind_eq_ok.mp h
  obtain ⟨hk, rfl⟩ := lift_eq_ok.mp hlift
  exact ⟨k, Symbols.resolve_eq_ok hk, emit_advances _ h⟩

/-- Declaring a variable. -/
theorem Generate.declareVariable_advances (h : declareVariable x c = .ok k c') :
    k = c.slots.length ∧ Advances c c' [] [] [] (c.progress.declare x) := by
  obtain ⟨_, _, hget, h⟩ := bind_eq_ok.mp h
  cases hget
  obtain ⟨⟨slot, symbols⟩, d, hlift, h⟩ := bind_eq_ok.mp h
  obtain ⟨hdeclare, rfl⟩ := lift_eq_ok.mp hlift
  obtain ⟨rfl, rfl⟩ : slot = k ∧ { c with symbols } = c' := by cases h; exact ⟨rfl, rfl⟩
  unfold Symbols.declare at hdeclare
  split at hdeclare
  · rename_i scope rest hscopes
    cases hdeclare
    have hslots := Compilation.slots_eq hscopes
    refine ⟨by rw [hslots]; exact Array.length_toList.symm, ?_⟩
    refine Advances.of_symbols (by rw [hscopes]; rfl) rfl rfl ?_
    unfold Compilation.progress Progress.declare
    rw [hslots]
    exact congrArg (Progress.mk c.labels) Array.toList_push
  · cases hdeclare

mutual

/-- Generating an expression appends its instructions. -/
theorem Expr.generate_advances (functions : List Function) (e : Expr Cell) {c c' : Compilation}
    (h : e.generate c = .ok () c') :
    ∃ code, Advances c c' code [] (e.loads functions) c.progress ∧
      ∀ K, c'.pool.entries.toList <+: K → e.Emits K c.slots code := by
  -- The table of the whole program is not known yet, so each part is for any table that begins with
  -- the entries that the pool has behind it.
  match e with
  | .absent => cases h
  | .literal _ v =>
    obtain ⟨k, ha, hk⟩ := loadConstant_advances h
    exact ⟨_, ha, fun K hK => ⟨k, hk K hK, rfl⟩⟩
  | .load _ x =>
    obtain ⟨k, hx, ha⟩ := emitSlot_advances (located_eq_ok.mp h)
    exact ⟨_, ha, fun K _ => ⟨k, hx, rfl⟩⟩
  | .element _ x row col =>
    obtain ⟨_, c₁, h₁, h⟩ := bind_eq_ok.mp (located_eq_ok.mp h)
    obtain ⟨_, c₂, h₂, h₃⟩ := bind_eq_ok.mp h
    obtain ⟨r, hr, er⟩ := row.generate_advances functions h₁
    obtain ⟨l, hl, el⟩ := col.generate_advances functions h₂
    obtain ⟨k, hx, hk⟩ := emitSlot_advances h₃
    rw [hr.slots] at el
    rw [(hr.keep hl).slots] at hx
    refine ⟨_, (hr.keep hl).then_code hk, fun K hK => ?_⟩
    have hK₂ := hk.pool.trans hK
    exact ⟨r, l, k, er K (hl.pool.trans hK₂), el K hK₂, hx, rfl⟩
  | .newArray _ rows cols fill =>
    obtain ⟨_, c₁, h₁, h⟩ := bind_eq_ok.mp (located_eq_ok.mp h)
    obtain ⟨_, c₂, h₂, h⟩ := bind_eq_ok.mp h
    obtain ⟨_, c₃, h₃, h₄⟩ := bind_eq_ok.mp h
    obtain ⟨r, hr, er⟩ := rows.generate_advances functions h₁
    obtain ⟨l, hl, el⟩ := cols.generate_advances functions h₂
    obtain ⟨k, hk, ek⟩ := loadConstant_advances h₃
    have hm := emit_advances _ h₄
    rw [hr.slots] at el
    refine ⟨_, hr.keep ((hl.keep hk).then_code hm), fun K hK => ?_⟩
    have hK₃ := hm.pool.trans hK
    have hK₂ := hk.pool.trans hK₃
    exact ⟨r, l, k, er K (hl.pool.trans hK₂), el K hK₂, ek K hK₃, by simp; rfl⟩
  | .call _ name args =>
    obtain ⟨_, c₁, h₁, h₂⟩ := bind_eq_ok.mp (located_eq_ok.mp h)
    obtain ⟨a, ha, ea⟩ := Expr.generateArguments_advances functions args h₁
    have hm := emit_advances _ h₂
    exact ⟨_, (ha.then_code hm).missing functions name args.length,
      fun K hK => ⟨a, ea K (hm.pool.trans hK), rfl⟩⟩
  | .binary _ op left right =>
    have h := located_eq_ok.mp h
    cases hop : op.opcode? with
    | none =>
      rw [hop] at h
      cases h
    | some o =>
      rw [hop] at h
      obtain ⟨_, c₁, h₁, h⟩ := bind_eq_ok.mp h
      obtain ⟨_, c₂, h₂, h₃⟩ := bind_eq_ok.mp h
      obtain ⟨l, hl, el⟩ := left.generate_advances functions h₁
      obtain ⟨r, hr, er⟩ := right.generate_advances functions h₂
      have hm := emit_advances _ h₃
      rw [hl.slots] at er
      refine ⟨_, (hl.keep hr).then_code hm, fun K hK => ?_⟩
      have hK₂ := hm.pool.trans hK
      exact ⟨l, r, o, hop, el K (hr.pool.trans hK₂), er K hK₂, rfl⟩
  | .negation _ operand =>
    obtain ⟨_, c₁, h₁, h₂⟩ := bind_eq_ok.mp (located_eq_ok.mp h)
    obtain ⟨a, ha, ea⟩ := operand.generate_advances functions h₁
    have hm := emit_advances _ h₂
    exact ⟨_, ha.then_code hm, fun K hK => ⟨a, ea K (hm.pool.trans hK), rfl⟩⟩

/-- Generating the arguments of a call appends their instructions. -/
theorem Expr.generateArguments_advances (functions : List Function) (es : List (Expr Cell))
    {c c' : Compilation} (h : Expr.generateArguments es c = .ok () c') :
    ∃ code, Advances c c' code [] (Expr.argumentLoads functions es) c.progress ∧
      ∀ K, c'.pool.entries.toList <+: K → Expr.EmitsArguments K c.slots es code := by
  match es with
  | [] =>
    cases h
    exact ⟨[], Advances.refl c, fun _ _ => rfl⟩
  | e :: es =>
    obtain ⟨_, c₁, h₁, h₂⟩ := bind_eq_ok.mp h
    obtain ⟨rest, hr, er⟩ := Expr.generateArguments_advances functions es h₁
    obtain ⟨a, ha, ea⟩ := e.generate_advances functions h₂
    rw [hr.slots] at ea
    exact ⟨_, hr.keep ha, fun K hK => ⟨rest, a, er K (ha.pool.trans hK), ea K hK, rfl⟩⟩

end

/-- Declaring variables in order. -/
theorem Generate.declareAll_advances (names : List Bytes) (h : declareAll names c = .ok () c') :
    Advances c c' [] [] [] ⟨c.labels, c.slots ++ names⟩ := by
  induction names generalizing c with
  | nil =>
    cases h
    rw [List.append_nil]
    exact Advances.refl _
  | cons x names ih =>
    obtain ⟨_, d, h₁, h₂⟩ := bind_eq_ok.mp h
    have hd := (declareVariable_advances h₁).2
    have hrest := ih h₂
    rw [hd.labels, hd.slots] at hrest
    simpa [Progress.declare, Compilation.progress] using hd.trans hrest

/-- Storing the arguments into the parameters. -/
theorem Generate.storeAll_advances (names : List Bytes) (h : storeAll names c = .ok () c') :
    Advances c c' (names.map fun x => on .store ((slotOf c.slots x).getD 0)) [] [] c.progress := by
  induction names generalizing c with
  | nil =>
    cases h
    exact Advances.refl _
  | cons x names ih =>
    obtain ⟨_, d, h₁, h₂⟩ := bind_eq_ok.mp h
    obtain ⟨k, hk, hd⟩ := emitSlot_advances h₁
    have hrest := ih h₂
    rw [hd.slots] at hrest
    have h := hd.keep hrest
    rw [← Option.getD_some (a := k) (b := 0), ← hk] at h
    exact h

/-- Leaving a function with the value false. -/
theorem Generate.giveBackFalse_advances (h : giveBackFalse c = .ok () c') :
    ∃ code, Advances c c' code [] [some (.boolean false)] c.progress ∧
      ∀ K, c'.pool.entries.toList <+: K → EmitsFalse K code := by
  obtain ⟨_, d, h₁, h₂⟩ := bind_eq_ok.mp h
  obtain ⟨k, hk, ek⟩ := loadConstant_advances h₁
  have hm := emit_advances _ h₂
  exact ⟨_, hk.then_code hm, fun K hK => ⟨k, ek K (hm.pool.trans hK), rfl⟩⟩

/-- What a generator does inside a loop it does to the compilation with the loop open. -/
theorem Generate.inLoop_advances {start stop : Bytes} {x : Generate Unit}
    (h : inLoop start stop x c = .ok () c') :
    ∃ d, x { c with symbols := c.symbols.enterLoop start stop } = .ok () d ∧
      c'.pool = d.pool ∧
      ∀ {code fs vs τ},
        Advances { c with symbols := c.symbols.enterLoop start stop } d code fs vs τ →
        Advances c c' code fs vs τ := by
  unfold inLoop at h
  split at h
  · rename_i d hx
    obtain rfl : { d with symbols := d.symbols.exitLoop } = c' := by
      cases h
      rfl
    refine ⟨d, hx, rfl, fun ha => ?_⟩
    exact
      { code_eq := ha.code_eq
        pool := ha.pool
        pool_size := ha.pool_size
        entered := ha.entered
        outer := ha.outer
        loops := congrArg List.tail ha.loops
        functions := ha.functions.trans (Symbols.defineAll_congr (by rfl) _)
        progress := ha.progress }
  · cases h

/-- Changing the element behind the beginning of a list. -/
theorem modify_length (xs : List α) (y : α) (ys : List α) (f : α → α) :
    (xs ++ y :: ys).modify xs.length f = xs ++ f y :: ys := by
  induction xs with
  | nil => rfl
  | cons x xs ih => exact congrArg (x :: ·) ih

/-- Opening a function, generating its code and closing it appends that code behind the allocation
of a frame for all the variables that were declared. -/
theorem Generate.frame_advances {place : Nat} {c₁ : Compilation}
    (hopen : openFrame name c = .ok place c₁) (hbody : Advances c₁ d code fs vs τ)
    (hclose : closeFrame place d = .ok () c') :
    c₁.progress = ⟨c.labels, []⟩ ∧ c₁.stop = c.stop ∧ c'.pool = d.pool ∧
      Advances c c' (on .frame τ.slots.length :: code) fs vs ⟨τ.labels, c.slots⟩ := by
  obtain ⟨rfl, rfl⟩ : c.code.size = place ∧
      { c with symbols := c.symbols.enter name, code := c.code.push (on .frame 0) } = c₁ := by
    cases hopen
    exact ⟨rfl, rfl⟩
  obtain ⟨_, _, hget, hclose⟩ := bind_eq_ok.mp hclose
  cases hget
  obtain ⟨⟨scope, symbols⟩, _, hlift, hclose⟩ := bind_eq_ok.mp hclose
  obtain ⟨hexit, rfl⟩ := lift_eq_ok.mp hlift
  cases hclose
  unfold Symbols.exit at hexit
  split at hexit
  · rename_i scopes hscopes
    cases hexit
    have hslots : τ.slots.length = scope.slots.size := by
      rw [← hbody.slots]
      unfold Compilation.slots
      rw [hscopes]
      exact Array.length_toList
    have houter : scopes = c.symbols.scopes := by
      have := hbody.outer
      rw [hscopes] at this
      exact this
    refine ⟨rfl, rfl, rfl, ?_⟩
    exact
      { code_eq := by
          -- The allocation was appended without slots; its operand is filled in only now.
          have hcode := hbody.code_eq
          rw [Array.toList_push, List.append_assoc] at hcode
          rw [Array.toList_modify, hcode, hslots, ← Array.length_toList]
          exact modify_length _ _ _ _
        pool := hbody.pool
        pool_size := hbody.pool_size
        entered := hbody.entered
        outer := congrArg List.tail houter
        loops := hbody.loops
        functions := hbody.functions.trans (Symbols.defineAll_congr (by rfl) _)
        progress := by
          unfold Compilation.progress Compilation.slots
          rw [houter, ← hbody.labels] }
  · cases hexit

/-- The label behind the innermost loop is the one that is found. -/
theorem Symbols.loopStop_eq_ok (h : c.symbols.loopStop = .ok label) : c.stop = some label := by
  unfold loopStop at h
  unfold Compilation.stop
  split at h
  · rename_i loop rest hloops
    cases h
    rw [hloops]
    rfl
  · cases h

/-- Naming the index of a counting loop, whose own two labels are made. -/
theorem Generate.indexVariable_advances {index : Bytes} (h : indexVariable index c = .ok name c')
    (hσ : c.progress = σ.label 2) :
    name = σ.indexName index ∧
      Advances c c' [] [] [] (σ.label (if index.isEmpty then 3 else 2)) := by
  unfold indexVariable at h
  unfold Progress.indexName
  split at h
  · rename_i hempty
    obtain ⟨label, d, h₁, h₂⟩ := bind_eq_ok.mp h
    obtain ⟨rfl, ha⟩ := newLabel_advances h₁ hσ
    cases h₂
    rw [if_pos hempty, if_pos hempty]
    exact ⟨rfl, ha⟩
  · rename_i hempty
    cases h
    rw [if_neg hempty, if_neg hempty, ← hσ]
    exact ⟨rfl, Advances.refl c⟩

/-- Generating the statement, where it succeeds, appends its instructions. -/
def Stmt.Generates (functions : List Function) (s : Stmt Cell) : Prop :=
  ∀ {c c' : Compilation}, s.generate c = .ok () c' →
    ∃ code τ, Advances c c' code s.functions (s.loads functions) τ ∧
      ∀ K, c'.pool.entries.toList <+: K → s.Emits K c.stop c.progress code τ

/-- A branch appends its instructions if its parts do. -/
theorem Stmt.branch_generates (pos : Position) (cond : Expr Cell) {yes no : Stmt Cell}
    (hyes : yes.Generates functions) (hno : no.Generates functions) :
    (Stmt.branch pos cond yes no).Generates functions := by
  intro c c' h
  obtain ⟨done, c₀, h₀, h⟩ := bind_eq_ok.mp (located_eq_ok.mp h)
  obtain ⟨hdone, hd⟩ := newLabel_advances h₀ rfl
  cases habsent : no.isAbsent with
  | true =>
    rw [if_pos habsent] at h
    simp only [bind_eq_ok] at h
    obtain ⟨_, c₁, h₁, _, c₂, h₂, _, c₃, h₃, _, c₄, h₄, h₅⟩ := h
    obtain ⟨q, hq, eq⟩ := cond.generate_advances functions h₁
    have hj := emitJump_advances h₂
    obtain ⟨y, τ, hy, ey⟩ := hyes h₃
    have hm := (emitJump_advances h₄).keep (mark_advances h₅)
    have hpre := (hd.keep hq).keep hj
    rw [hd.slots] at eq
    rw [hpre.stop, hpre.progress] at ey
    obtain rfl := Stmt.eq_absent habsent
    refine ⟨_, τ, by simpa [Stmt.functions, Stmt.loads] using (hpre.trans hy).keep hm,
      fun K hK => ?_⟩
    have hK₃ := hm.pool.trans hK
    rw [Stmt.Emits, if_pos habsent]
    exact ⟨q, y, eq K ((hj.trans hy).pool.trans hK₃), ey K hK₃, by simp [hdone]⟩
  | false =>
    have habsent' : ¬no.isAbsent = true := by simp [habsent]
    rw [if_neg habsent'] at h
    obtain ⟨otherwise, c₁, h₁, h⟩ := bind_eq_ok.mp h
    obtain ⟨hotherwise, ho⟩ := newLabel_advances h₁ hd.progress
    simp only [bind_eq_ok] at h
    obtain ⟨_, c₂, h₂, _, c₃, h₃, _, c₄, h₄, _, c₅, h₅, _, c₆, h₆, _, c₇, h₇, h₈⟩ := h
    obtain ⟨q, hq, eq⟩ := cond.generate_advances functions h₂
    have hj := emitJump_advances h₃
    obtain ⟨y, ρ, hy, ey⟩ := hyes h₄
    have hm := (emitJump_advances h₅).keep (mark_advances h₆)
    obtain ⟨n, τ, hn, en⟩ := hno h₇
    have hm' := mark_advances h₈
    have hpre := ((hd.trans ho).keep hq).keep hj
    have hmid := (hpre.trans hy).keep hm
    rw [ho.slots] at eq
    rw [hpre.stop, hpre.progress] at ey
    rw [hmid.stop, hmid.progress] at en
    refine ⟨_, τ, by simpa [Stmt.functions, Stmt.loads] using (hmid.trans hn).keep hm',
      fun K hK => ?_⟩
    -- Each part has the constants it asks for: the pool behind it only grew.
    have hK₆ := hm'.pool.trans hK
    have hK₄ := (hm.trans hn).pool.trans hK₆
    rw [Stmt.Emits, if_neg habsent']
    exact ⟨q, y, n, ρ, eq K ((hj.trans hy).pool.trans hK₄), ey K hK₄, en K hK₆,
      by simp [hdone, hotherwise, Progress.label]⟩

/-- A loop appends its instructions if its body does. -/
theorem Stmt.whileLoop_generates (pos : Position) (cond : Expr Cell)
    (hbody : body.Generates functions) :
    (Stmt.whileLoop pos cond body).Generates functions := by
  intro c c' h
  obtain ⟨start, c₀, h₀, h⟩ := bind_eq_ok.mp (located_eq_ok.mp h)
  obtain ⟨hstart, hs⟩ := newLabel_advances h₀ rfl
  obtain ⟨done, c₁, h₁, h⟩ := bind_eq_ok.mp h
  obtain ⟨hdone, hd⟩ := newLabel_advances h₁ hs.progress
  obtain ⟨d, h, hpool, hclose⟩ := inLoop_advances h
  simp only [bind_eq_ok] at h
  obtain ⟨_, c₂, h₂, _, c₃, h₃, _, c₄, h₄, _, c₅, h₅, _, c₆, h₆, h₇⟩ := h
  -- What each part appends, and the relation of the condition and of the body to their own parts.
  have hm := mark_advances h₂
  obtain ⟨q, hq, eq⟩ := cond.generate_advances functions h₃
  have hj := emitJump_advances h₄
  obtain ⟨b, τ, hb, eb⟩ := hbody h₅
  have hm' := (emitJump_advances h₆).keep (mark_advances h₇)
  have hpre := (hm.keep hq).keep hj
  have hloop := (hs.trans hd).trans (hclose ((hpre.trans hb).keep hm'))
  rw [hm.slots] at eq
  rw [hpre.stop, hpre.progress] at eb
  -- Opening the loop changed neither the slots nor the progress, only where a `leave` goes.
  change ∀ K, _ → cond.Emits K c₁.slots q at eq
  change ∀ K, _ → body.Emits K (some done) c₁.progress b τ at eb
  rw [hd.slots] at eq
  rw [hd.progress, hdone] at eb
  refine ⟨_, τ, by simpa [Stmt.functions, Stmt.loads] using hloop, fun K hK => ?_⟩
  -- The pool behind each part is a beginning of the last one, and so of all constants.
  have hK₅ := hm'.pool.trans (hpool ▸ hK)
  exact ⟨q, b, eq K ((hj.trans hb).pool.trans hK₅), eb K hK₅,
    by simp [hstart, hdone, Progress.label]⟩

/-- A counting loop appends its instructions if its body does. -/
theorem Stmt.countLoop_generates (pos : Position) (index : Bytes) (count : Expr Cell)
    (hbody : body.Generates functions) :
    (Stmt.countLoop pos index count body).Generates functions := by
  intro c c' h
  obtain ⟨start, c₀, h₀, h⟩ := bind_eq_ok.mp (located_eq_ok.mp h)
  obtain ⟨hstart, hs⟩ := newLabel_advances h₀ rfl
  obtain ⟨done, c₁, h₁, h⟩ := bind_eq_ok.mp h
  obtain ⟨hdone, hd⟩ := newLabel_advances h₁ hs.progress
  obtain ⟨d, h, hpool, hclose⟩ := inLoop_advances h
  obtain ⟨name, c₂, h₂, h⟩ := bind_eq_ok.mp h
  obtain ⟨rfl, hi⟩ := indexVariable_advances h₂ hd.progress
  obtain ⟨_, c₃, h₃, h⟩ := bind_eq_ok.mp h
  have hx := (declareVariable_advances h₃).2
  rw [hi.progress] at hx
  obtain ⟨_, _, hget, h⟩ := bind_eq_ok.mp h
  cases hget
  obtain ⟨k, _, hlift, h⟩ := bind_eq_ok.mp h
  obtain ⟨hk, rfl⟩ := lift_eq_ok.mp hlift
  simp only [bind_eq_ok] at h
  obtain ⟨_, c₄, h₄, _, c₅, h₅, _, c₆, h₆, _, c₇, h₇, _, c₈, h₈, _, c₉, h₉, _, c₁₀, h₁₀,
    _, c₁₁, h₁₁, _, c₁₂, h₁₂, _, c₁₃, h₁₃, _, c₁₄, h₁₄, _, c₁₅, h₁₅, _, c₁₆, h₁₆, h₁₇⟩ := h
  -- Three pieces stand around the count and the body: the start, the test and the increment.
  obtain ⟨k0, hz, ez⟩ := loadConstant_advances h₄
  have hm := ((emitOperand_advances h₅).keep (mark_advances h₆)).keep (emitOperand_advances h₇)
  obtain ⟨q, hq, eq⟩ := count.generate_advances functions h₈
  have hj := (emit_advances _ h₉).keep (emitJump_advances h₁₀)
  obtain ⟨b, τ, hb, eb⟩ := hbody h₁₁
  have hl := emitOperand_advances h₁₂
  obtain ⟨k1, ho, eo⟩ := loadConstant_advances h₁₃
  have he := (((emit_advances _ h₁₄).keep (emitOperand_advances h₁₅)).keep
    (emitJump_advances h₁₆)).keep (mark_advances h₁₇)
  have hpre := (((hi.trans hx).keep hz).keep hm)
  have hmid := (hpre.keep hq).keep hj
  have hloop := (hs.trans hd).trans (hclose ((((hmid.trans hb).keep hl).keep ho).keep he))
  rw [hpre.slots] at eq
  rw [hmid.stop, hmid.progress] at eb
  change ∀ K, _ → body.Emits K (some done) _ b τ at eb
  rw [hdone] at eb
  -- The index is resolved by its name, which may have been declared before the loop.
  have hk := Symbols.resolve_eq_ok hk
  rw [hx.slots] at hk
  refine ⟨_, τ, by simpa [Stmt.functions, Stmt.loads] using hloop, fun K hK => ?_⟩
  have hK₁₃ := he.pool.trans (hpool ▸ hK)
  have hK₁₁ := (hl.trans ho).pool.trans hK₁₃
  have hK₈ := (hj.trans hb).pool.trans hK₁₁
  exact ⟨q, b, k, k0, k1, hk, ez K ((hm.trans hq).pool.trans hK₈), eq K hK₈, eb K hK₁₁,
    eo K hK₁₃, by simp [hstart, hdone, Progress.label]; exact ⟨rfl, rfl⟩⟩

/-- A function appends its instructions if its body does. -/
theorem Stmt.define_generates (pos : Position) (name : Bytes) (params : List Bytes)
    (hbody : body.Generates functions) :
    (Stmt.define pos name params body).Generates functions := by
  intro c c' h
  obtain ⟨done, c₀, h₀, h⟩ := bind_eq_ok.mp (located_eq_ok.mp h)
  obtain ⟨hdone, hd⟩ := newLabel_advances h₀ rfl
  obtain ⟨_, c₁, h₁, h⟩ := bind_eq_ok.mp h
  have hj := emitJump_advances h₁
  simp only [bind_eq_ok] at h
  obtain ⟨_, c₂, h₂, _, c₃, h₃, place, c₄, h₄, _, c₅, h₅, _, c₆, h₆, _, c₇, h₇, _, c₈, h₈,
    _, c₉, h₉, h₁₀⟩ := h
  -- The function is defined before its body is generated.
  have hf : Advances c₁ c₂ [] [⟨name, params, body⟩] [] c₁.progress := by
    cases h₂
    have hscopes := c₁.symbols.define_scopes name params.length 0
    refine Advances.of_symbols (by rw [hscopes]) (Symbols.define_loops ..) rfl ?_
    unfold Compilation.progress Compilation.slots
    rw [hscopes]
  have hm := mark_advances h₃
  have hp := declareAll_advances params h₅
  have hst := storeAll_advances params h₆
  obtain ⟨b, ρ, hb, eb⟩ := hbody h₇
  obtain ⟨r, hr, er⟩ := giveBackFalse_advances h₈
  obtain ⟨hprogress, hstop, hpool, hframe⟩ :=
    frame_advances h₄ (((hp.keep hst).trans hb).keep hr) h₉
  have hm' := mark_advances h₁₀
  have hpre := ((hd.keep hj).keep hf).keep hm
  have hlabels : c₄.labels = c.progress.labels + 1 :=
    (congrArg Progress.labels hprogress).trans hpre.labels
  have hslots : c₄.slots = [] := congrArg Progress.slots hprogress
  rw [hlabels, hslots, List.nil_append] at hp
  -- The loops around the function stay open in its body, so a `leave` there may go to them.
  rw [hst.stop, hp.stop, hstop, hpre.stop, hst.progress, hp.progress] at eb
  rw [hp.slots] at hframe
  have h := (hpre.trans hframe).keep hm'
  rw [hpre.slots] at h
  refine ⟨_, _, by simpa [Stmt.functions, Stmt.loads] using h, fun K hK => ?_⟩
  have hK₈ : c₈.pool.entries.toList <+: K := hpool ▸ hm'.pool.trans hK
  exact ⟨b, r, ρ, eb K (hr.pool.trans hK₈), er K hK₈, by simp [hdone, storesOf], rfl⟩

mutual

/-- Generating a statement appends its instructions. -/
theorem Stmt.generate_advances (functions : List Function) (s : Stmt Cell) :
    s.Generates functions := by
  intro c c' h
  match s with
  | .absent =>
    cases h
    exact ⟨[], _, Advances.refl c, fun _ _ => ⟨rfl, rfl⟩⟩
  | .block _ body => exact Stmt.generateAll_advances functions body h
  | .declare _ x value =>
    obtain ⟨k, c₁, h₁, h⟩ := bind_eq_ok.mp (located_eq_ok.mp h)
    obtain ⟨_, c₂, h₂, h₃⟩ := bind_eq_ok.mp h
    obtain ⟨rfl, hd⟩ := declareVariable_advances h₁
    obtain ⟨v, hv, ev⟩ := value.generate_advances functions h₂
    have hm := emit_advances _ h₃
    -- The variable is declared before its value is generated, so the value may already use it.
    rw [hd.slots] at ev
    exact ⟨_, _, (hd.keep hv).then_code hm, fun K hK => ⟨v, ev K (hm.pool.trans hK), rfl, rfl⟩⟩
  | .assign _ x value =>
    obtain ⟨_, c₁, h₁, h₂⟩ := bind_eq_ok.mp (located_eq_ok.mp h)
    obtain ⟨v, hv, ev⟩ := value.generate_advances functions h₁
    obtain ⟨k, hx, hk⟩ := emitSlot_advances h₂
    rw [hv.slots] at hx
    exact ⟨_, _, hv.then_code hk, fun K hK => ⟨v, k, ev K (hk.pool.trans hK), hx, rfl, rfl⟩⟩
  | .assignElement _ x row col value =>
    obtain ⟨_, c₁, h₁, h⟩ := bind_eq_ok.mp (located_eq_ok.mp h)
    obtain ⟨_, c₂, h₂, h⟩ := bind_eq_ok.mp h
    obtain ⟨_, c₃, h₃, h₄⟩ := bind_eq_ok.mp h
    obtain ⟨r, hr, er⟩ := row.generate_advances functions h₁
    obtain ⟨l, hl, el⟩ := col.generate_advances functions h₂
    obtain ⟨v, hv, ev⟩ := value.generate_advances functions h₃
    obtain ⟨k, hx, hk⟩ := emitSlot_advances h₄
    rw [hr.slots] at el
    rw [(hr.keep hl).slots] at ev
    have hvalues := hr.keep (hl.keep hv)
    rw [hvalues.slots] at hx
    refine ⟨_, _, hvalues.then_code hk, fun K hK => ?_⟩
    -- Constants are only added, so what stands for a constant early on still does in the end.
    have hK₃ := hk.pool.trans hK
    have hK₂ := hv.pool.trans hK₃
    exact ⟨r, l, v, k, er K (hl.pool.trans hK₂), el K hK₂, ev K hK₃, hx, by simp, rfl⟩
  | .branch _ cond yes no =>
    exact Stmt.branch_generates _ cond (yes.generate_advances functions)
      (no.generate_advances functions) h
  | .whileLoop _ cond body =>
    exact Stmt.whileLoop_generates _ cond (body.generate_advances functions) h
  | .countLoop _ index count body =>
    exact Stmt.countLoop_generates _ index count (body.generate_advances functions) h
  | .leave _ =>
    obtain ⟨_, _, hget, h⟩ := bind_eq_ok.mp (located_eq_ok.mp h)
    cases hget
    obtain ⟨label, d, h₁, h₂⟩ := bind_eq_ok.mp h
    obtain ⟨hstop, rfl⟩ := lift_eq_ok.mp h₁
    exact ⟨_, _, emit_advances _ h₂, fun _ _ => ⟨label, Symbols.loopStop_eq_ok hstop, rfl, rfl⟩⟩
  | .giveBack _ value =>
    unfold Stmt.generate at h
    split at h
    · rename_i hvalue
      obtain ⟨code, ha, ea⟩ := giveBackFalse_advances h
      rw [Stmt.loads, if_pos hvalue]
      refine ⟨code, _, ha, fun K hK => ?_⟩
      rw [Stmt.Emits, if_pos hvalue]
      exact ⟨ea K hK, rfl⟩
    · rename_i hvalue
      obtain ⟨_, d, h₁, h₂⟩ := bind_eq_ok.mp (located_eq_ok.mp h)
      obtain ⟨v, hv, ev⟩ := value.generate_advances functions h₁
      have hm := emit_advances _ h₂
      rw [Stmt.loads, if_neg hvalue]
      refine ⟨_, _, hv.then_code hm, fun K hK => ?_⟩
      rw [Stmt.Emits, if_neg hvalue]
      exact ⟨v, ev K (hm.pool.trans hK), rfl, rfl⟩
  | .define _ name params body =>
    exact Stmt.define_generates _ name params (body.generate_advances functions) h
  | .perform _ name args =>
    obtain ⟨_, c₁, h₁, h⟩ := bind_eq_ok.mp (located_eq_ok.mp h)
    obtain ⟨_, c₂, h₂, h₃⟩ := bind_eq_ok.mp h
    obtain ⟨a, ha, ea⟩ := Expr.generateArguments_advances functions args h₁
    have hm := (emit_advances _ h₂).keep (emit_advances _ h₃)
    exact ⟨_, _, (ha.then_code hm).missing functions name args.length,
      fun K hK => ⟨a, ea K (hm.pool.trans hK), rfl, rfl⟩⟩

/-- Generating statements in sequence appends their instructions. -/
theorem Stmt.generateAll_advances (functions : List Function) (ss : List (Stmt Cell))
    {c c' : Compilation} (h : Stmt.generateAll ss c = .ok () c') :
    ∃ code τ, Advances c c' code (Stmt.allFunctions ss) (Stmt.allLoads functions ss) τ ∧
      ∀ K, c'.pool.entries.toList <+: K → Stmt.EmitsAll K c.stop ss c.progress code τ := by
  match ss with
  | [] =>
    cases h
    exact ⟨[], _, Advances.refl c, fun _ _ => ⟨rfl, rfl⟩⟩
  | s :: ss =>
    obtain ⟨_, c₁, h₁, h₂⟩ := bind_eq_ok.mp h
    obtain ⟨code, ρ, hs, es⟩ := s.generate_advances functions h₁
    obtain ⟨rest, τ, hr, er⟩ := Stmt.generateAll_advances functions ss h₂
    rw [hs.stop, hs.progress] at er
    exact ⟨_, τ, hs.trans hr, fun K hK =>
      ⟨code, rest, ρ, es K (hr.pool.trans hK), er K hK, rfl⟩⟩

end

/-- Generating a whole program appends its instructions. -/
theorem Tree.generate_advances (t : Tree Cell) (hloops : c.symbols.loops = [])
    (hlabels : c.labels = 0) (h : t.generate c = .ok () c') :
    ∃ code τ, Advances c c' code t.functions t.loads τ ∧
      ∀ K, c'.pool.entries.toList <+: K → t.Emits K code := by
  obtain ⟨place, c₁, h₁, h⟩ := bind_eq_ok.mp h
  obtain ⟨_, c₂, h₂, h⟩ := bind_eq_ok.mp h
  obtain ⟨_, c₃, h₃, h₄⟩ := bind_eq_ok.mp h
  obtain ⟨b, ρ, hb, eb⟩ := Stmt.generateAll_advances t.functions t.body h₂
  obtain ⟨r, hr, er⟩ := giveBackFalse_advances h₃
  obtain ⟨hprogress, hstop, hpool, hframe⟩ := frame_advances h₁ (hb.keep hr) h₄
  have hnone : c.stop = none := by
    unfold Compilation.stop
    rw [hloops]
    rfl
  rw [hprogress, hstop, hnone, hlabels] at eb
  refine ⟨_, _, by simpa [Tree.functions, Tree.loads] using hframe, fun K hK => ?_⟩
  rw [hpool] at hK
  exact ⟨b, r, ρ, eb K (hr.pool.trans hK), er K hK, by simp⟩

end StackScript
