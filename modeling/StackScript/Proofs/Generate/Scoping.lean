import StackScript.Proofs.Compile.Signatures
import StackScript.Proofs.Machine.Ensures
import StackScript.Proofs.Tree.Filled
import StackScript.Proofs.Tree.Mentions

/-!
# Scoping

Generating the code of a filled tree succeeds if and only if the tree is well scoped, and otherwise
fails for the first mention that offends, with the position of its node (`generate_of_read`). All
other faults need a gap in the tree or a function that was never opened. Generators are followed by
the mentions that they come past (`Generate.Checks`). Between them the innermost scope has the
variables that the mentions so far declare in its function (`Compilation.Knows`).

A generator is run inside a node, whose position an error takes unless it has one already. The
mention that is at fault has the position of its own node, so it is this node that gives the error
its position, however deep it lies.
-/

namespace StackScript

open Mention

variable {x : Bytes} {s : Compilation} {loops : List LoopLabels} {ms : List Mention} {t : Tree Cell}

namespace Cursor

/-- One has come past statements in sequence. -/
def pastAll (c : Cursor) (ss : List (Stmt Cell)) : Cursor :=
  { c with
    functions := c.functions + (Stmt.allFunctions ss).length
    labels := c.labels + Stmt.allLabelCount ss }

/-- Past some statements is past the first and then the others. -/
theorem pastAll_cons (c : Cursor) (s : Stmt Cell) (ss : List (Stmt Cell)) :
    c.pastAll (s :: ss) = (c.past s).pastAll ss := by
  simp [pastAll, past, Stmt.allFunctions, Stmt.allLabelCount, Nat.add_assoc]

/-- A branch makes its labels before its parts. -/
theorem past_branch (c : Cursor) (pos : Position) (cond : Expr Cell) (yes no : Stmt Cell) :
    c.past (.branch pos cond yes no) =
      ((c.label (if no.isAbsent then 1 else 2)).past yes).past no := by
  simp [past, label, Stmt.functions, Stmt.labelCount, Nat.add_assoc]

/-- A loop makes its labels before its body. -/
theorem past_whileLoop (c : Cursor) (pos : Position) (cond : Expr Cell) (body : Stmt Cell) :
    c.past (.whileLoop pos cond body) = (c.label 2).past body := by
  simp [past, label, Stmt.functions, Stmt.labelCount, Nat.add_assoc]

/-- A counting loop makes its labels before its body. -/
theorem past_countLoop (c : Cursor) (pos : Position) (index : Bytes) (count : Expr Cell)
    (body : Stmt Cell) :
    c.past (.countLoop pos index count body) =
      (c.label (if index.isEmpty then 3 else 2)).past body := by
  simp [past, label, Stmt.functions, Stmt.labelCount, Nat.add_assoc]

/-- After a function its owner is back. -/
theorem past_define (c : Cursor) (pos : Position) (name : Bytes) (params : List Bytes)
    (body : Stmt Cell) :
    c.past (.define pos name params body) = { c.enter.past body with owner := c.owner } := by
  simp [past, enter, Stmt.functions, Stmt.labelCount, Nat.add_assoc, Nat.add_comm 1]

end Cursor

/-- A known operator has an operation. -/
theorem Operator.exists_opcode? {op : Operator} (h : op ∈ Operator.all) :
    ∃ o, op.opcode? = some o := by
  have hall : ∀ op ∈ Operator.all, op.opcode?.isSome = true := by decide
  exact Option.isSome_iff_exists.mp (hall op h)

/-- An error takes the position of the node around it, if there is one, unless it has one. -/
def CompileError.within (p : Option Position) (e : CompileError) : CompileError :=
  ⟨e.pos.or p, e.fault⟩

/-- No position leaves a fault as it is. -/
theorem CompileError.within_none (e : CompileError) : e.within none = e := by
  rw [within, Option.or_none]

/-- A position from further outside changes nothing. -/
theorem CompileError.within_locate (p : Option Position) (pos : Position) (e : CompileError) :
    (e.locate pos).within p = e.within (some pos) := by
  obtain ⟨_ | pos', fault⟩ := e <;> rfl

/-- What a compilation knows behind the mentions `before`: the function that it is in has the
variables that they declare, and functions to come have none. -/
structure Compilation.Knows (scope : Bytes) (outer : List Scope) (loops : List LoopLabels)
    (c : Cursor) (before : List Mention) (s : Compilation) : Prop where
  scopes : s.symbols.scopes = ⟨scope, (variablesOf c.owner before).toArray⟩ :: outer
  loops : s.symbols.loops = loops
  labels : s.labels = c.labels
  owner_le : c.owner ≤ c.functions
  fresh : ∀ o, c.functions < o → variablesOf o before = []

namespace Compilation.Knows

variable {scope : Bytes} {outer : List Scope} {loops : List LoopLabels} {c : Cursor}
  {before : List Mention} {s : Compilation}

/-- Mentions that declare nothing change nothing. -/
theorem quiet (h : s.Knows scope outer loops c before) (hms : ∀ o, variablesOf o ms = [])
    {s' : Compilation} (hscopes : s'.symbols.scopes = s.symbols.scopes)
    (hloops : s'.symbols.loops = s.symbols.loops) (hlabels : s'.labels = s.labels) :
    s'.Knows scope outer loops c (before ++ ms) where
  scopes := by rw [hscopes, h.scopes, variablesOf_append, hms, List.append_nil]
  loops := hloops.trans h.loops
  labels := hlabels.trans h.labels
  owner_le := h.owner_le
  fresh o ho := by rw [variablesOf_append, h.fresh o ho, hms]; rfl

/-- A variable that was declared is found. -/
theorem resolve_ok (h : s.Knows scope outer loops c before) (hx : x ∈ variablesOf c.owner before) :
    ∃ slot, s.symbols.resolve x = .ok slot := by
  unfold Symbols.resolve
  rw [h.scopes]
  obtain ⟨slot, hslot⟩ : ∃ slot, (variablesOf c.owner before).findIdx? (· == x) = some slot := by
    rw [← Option.isSome_iff_exists, List.findIdx?_isSome]
    simpa using hx
  simp only [List.findIdx?_toArray, hslot]
  exact ⟨slot, rfl⟩

/-- A variable that was not declared is not found. -/
theorem resolve_error (h : s.Knows scope outer loops c before)
    (hx : x ∉ variablesOf c.owner before) : s.symbols.resolve x = .error (.variableNotFound x) := by
  unfold Symbols.resolve
  rw [h.scopes]
  have hnone : (variablesOf c.owner before).findIdx? (· == x) = none := by
    rw [List.findIdx?_eq_none_iff]
    intro y hy
    rw [beq_eq_false_iff_ne]
    rintro rfl
    exact hx hy
  simp only [List.findIdx?_toArray, hnone]

end Compilation.Knows

/-- A generator succeeds in a compilation and changes neither its symbols nor the number of its
labels. -/
def Generate.Quiet (x : Generate α) (s : Compilation) : Prop :=
  ∃ a s', x s = .ok a s' ∧ s'.symbols = s.symbols ∧ s'.labels = s.labels

/-- Variables that were declared can be set. -/
theorem Compilation.Knows.storeAll {scope : Bytes} {outer : List Scope} {c : Cursor}
    {before : List Mention} (h : s.Knows scope outer loops c before) {names : List Bytes}
    (hnames : names ⊆ variablesOf c.owner before) : (Generate.storeAll names).Quiet s := by
  induction names generalizing s with
  | nil => exact ⟨(), s, rfl, rfl, rfl⟩
  | cons name names ih =>
    obtain ⟨hname, hnames⟩ := List.cons_subset.mp hnames
    obtain ⟨slot, hslot⟩ := h.resolve_ok hname
    have hfirst : Generate.emitSlot .store name s = Generate.emitOperand .store slot s := by
      change (Generate.lift (s.symbols.resolve name) >>= Generate.emitOperand .store) s = _
      rw [hslot]
      rfl
    obtain ⟨a, s', hrest, hsymbols, hlabels⟩ :=
      ih (s := { s with code := s.code.push { op := .store, operand := UInt64.ofNat slot } })
        { h with } hnames
    refine ⟨a, s', ?_, hsymbols, hlabels⟩
    change EStateM.bind (Generate.emitSlot .store name) (fun _ => Generate.storeAll names) s = _
    rw [EStateM.bind, hfirst]
    exact hrest

section

variable (scope : Bytes) (outer : List Scope) (loops : List LoopLabels)

/-- A generator that is run inside a node at `p` comes past the mentions `ms` behind `before`. It
succeeds if none of them offends, and otherwise its error is that of the first one; it closes all
loops that it has opened in both cases. -/
def Generate.ChecksAt (before : List Mention) (c c' : Cursor) (p : Option Position)
    (ms : List Mention) (x : Generate α) : Prop :=
  Ensures (Compilation.Knows scope outer loops c before)
    (fun _ s => firstOffence? before ms = none ∧ s.Knows scope outer loops c' (before ++ ms))
    (fun e s => firstOffence? before ms = some (e.within p) ∧ s.symbols.loops = loops) x

variable {scope outer loops} {before ms ms' : List Mention} {c c' c'' : Cursor}
  {p : Option Position}

/-- Generators check their mentions one after another. -/
theorem Generate.ChecksAt.bind {x : Generate α} {f : α → Generate β}
    (hx : x.ChecksAt scope outer loops before c c' p ms)
    (hf : ∀ a, (f a).ChecksAt scope outer loops (before ++ ms) c' c'' p ms') :
    (x >>= f).ChecksAt scope outer loops before c c'' p (ms ++ ms') := by
  have hfirst : Ensures (Compilation.Knows scope outer loops c before)
      (fun _ s => firstOffence? before ms = none ∧ s.Knows scope outer loops c' (before ++ ms))
      (fun e s => firstOffence? before (ms ++ ms') = some (e.within p) ∧
        s.symbols.loops = loops) x := by
    refine fun s hs => (hx s hs).imp (fun _ _ h => h) fun e s' h => ⟨?_, h.2⟩
    rw [firstOffence?_append, h.1]
    rfl
  -- The second one begins where the first has come past all of its mentions.
  refine hfirst.bind fun a s hs => ?_
  obtain ⟨hnone, hs⟩ := hs
  rw [firstOffence?_append, hnone, Option.none_or, ← List.append_assoc]
  exact hf a s hs

/-- A generator that changes no names checks nothing. -/
theorem Generate.ChecksAt.of_quiet {x : Generate α}
    (h : ∀ s, Compilation.Knows scope outer loops c before s → x.Quiet s) :
    x.ChecksAt scope outer loops before c c p [] := by
  intro s hs
  obtain ⟨a, s', hx, hsymbols, hlabels⟩ := h s hs
  rw [hx]
  exact ⟨rfl, hs.quiet (fun _ => rfl) (congrArg Symbols.scopes hsymbols)
    (congrArg Symbols.loops hsymbols) hlabels⟩

end

/-- A generator comes past mentions in whatever function it is run. -/
def Generate.Checks (c c' : Cursor) (inside : Bool) (p : Option Position) (ms : List Mention)
    (x : Generate α) : Prop :=
  ∀ scope outer loops before, loops.isEmpty = !inside →
    x.ChecksAt scope outer loops before c c' p ms

namespace Generate.Checks

variable {c c' c'' : Cursor} {inside : Bool} {p : Option Position} {ms ms' : List Mention}

/-- The cursor may be given by an equal one. -/
theorem of_eq {x : Generate α} (hx : Checks c c' inside p ms x) (h : c' = c'') :
    Checks c c'' inside p ms x := h ▸ hx

/-- Generators check their mentions one after another. -/
theorem bind {x : Generate α} {f : α → Generate β} (hx : Checks c c' inside p ms x)
    (hf : ∀ a, Checks c' c'' inside p ms' (f a)) :
    Checks c c'' inside p (ms ++ ms') (x >>= f) := fun scope outer loops before hloops =>
  (hx scope outer loops before hloops).bind fun a => hf a scope outer loops _ hloops

/-- A generator behind one that mentions nothing. -/
theorem after {x : Generate α} {f : α → Generate β} (hx : Checks c c' inside p [] x)
    (hf : ∀ a, Checks c' c'' inside p ms (f a)) : Checks c c'' inside p ms (x >>= f) :=
  hx.bind hf

/-- A generator in front of one that mentions nothing. -/
theorem followed {x : Generate α} {f : α → Generate β} (hx : Checks c c' inside p ms x)
    (hf : ∀ a, Checks c' c'' inside p [] (f a)) : Checks c c'' inside p ms (x >>= f) := by
  have h := hx.bind hf
  rwa [List.append_nil] at h

/-- The innermost position is the one that stays. -/
theorem located {x : Generate α} (pos : Position) (hx : Checks c c' inside (some pos) ms x) :
    Checks c c' inside p ms (located pos x) := by
  intro scope outer loops before hloops s hs
  have hx := hx scope outer loops before hloops s hs
  unfold Generate.located
  cases hr : x s with
  | ok a s' =>
    rw [hr] at hx
    exact hx
  | error e s' =>
    rw [hr] at hx
    refine ⟨?_, hx.2⟩
    rw [CompileError.within_locate]
    exact hx.1

/-- A generator that changes no names checks nothing. -/
theorem of_quiet {x : Generate α} (h : ∀ s, x.Quiet s) : Checks c c inside p [] x :=
  fun _ _ _ _ _ => .of_quiet fun s _ => h s

/-- A value checks nothing. -/
theorem pure (a : α) : Checks c c inside p [] (Pure.pure a) :=
  of_quiet fun s => ⟨a, s, rfl, rfl, rfl⟩

/-- Appending an instruction checks nothing. -/
theorem emit (i : Instruction) : Checks c c inside p [] (emit i) :=
  of_quiet fun _ => ⟨(), _, rfl, rfl, rfl⟩

/-- Loading a constant checks nothing. -/
theorem loadConstant (v : Cell) : Checks c c inside p [] (loadConstant v) :=
  of_quiet fun _ => ⟨(), _, rfl, rfl, rfl⟩

/-- Giving back false checks nothing. -/
theorem giveBackFalse : Checks c c inside p [] giveBackFalse :=
  (loadConstant _).after fun _ => emit _

/-- A new label checks nothing. -/
theorem newLabel (word : Bytes) : Checks c (c.label 1) inside p [] (newLabel word) := by
  intro scope outer loops before _ s hs
  refine ⟨rfl, ?_⟩
  rw [List.append_nil]
  exact { hs with labels := congrArg (· + 1) hs.labels }

/-- The signature of a function says nothing about variables. -/
theorem define (name : Bytes) (declared minimum : Int) :
    Checks c c inside p []
      (modify fun s => { s with symbols := s.symbols.define name declared minimum }) := by
  intro scope outer loops before _ s hs
  exact ⟨rfl, hs.quiet (fun _ => rfl) (Symbols.define_scopes ..) (Symbols.define_loops ..) rfl⟩

/-- Declaring a variable checks its name. -/
theorem declareVariable (x : Bytes) :
    Checks c c inside p [.declare c.owner x] (declareVariable x) := by
  intro scope outer loops before _
  refine Ensures.get fun s hs => ?_
  have hdeclare : s.symbols.declare x = .ok ((variablesOf c.owner before).toArray.size,
      { s.symbols with
        scopes := ⟨scope, (variablesOf c.owner before).toArray.push x⟩ :: outer }) := by
    unfold Symbols.declare
    rw [hs.scopes]
  have hnew (o : Nat) : variablesOf o [.declare c.owner x] = if c.owner = o then [x] else [] :=
    variablesOf_declare o c.owner [x]
  rw [hdeclare]
  refine ⟨rfl, ?_, hs.loops, hs.labels, hs.owner_le, fun o ho => ?_⟩
  · rw [variablesOf_append, hnew, if_pos rfl, ← List.push_toArray]
  · have hother : c.owner ≠ o := Nat.ne_of_lt (Nat.lt_of_le_of_lt hs.owner_le ho)
    rw [variablesOf_append, hs.fresh o ho, hnew, if_neg hother]
    rfl

/-- Declaring parameters checks their names. -/
theorem declareAll (names : List Bytes) :
    Checks c c inside p (names.map (.declare c.owner)) (declareAll names) := by
  induction names with
  | nil => exact pure ()
  | cons name names ih => exact (declareVariable name).bind fun _ => ih

/-- Variables are declared, and used by a generator that cannot fail then. -/
theorem introduce (names : List Bytes) {d : Generate α} {x : Generate β} {f : β → Generate γ}
    (hd : Checks c c inside p (names.map (.declare c.owner)) d)
    (hx : ∀ scope outer loops before s, Compilation.Knows scope outer loops c before s →
      names ⊆ variablesOf c.owner before → x.Quiet s)
    (hf : ∀ b, Checks c c' inside p ms (f b)) :
    Checks c c' inside p (names.map (.declare c.owner) ++ ms) (d >>= fun _ => x >>= f) := by
  intro scope outer loops before hloops
  refine (hd scope outer loops before hloops).bind fun _ => ?_
  have hquiet : x.ChecksAt scope outer loops (before ++ names.map (.declare c.owner)) c c p [] := by
    refine .of_quiet fun s hs => hx scope outer loops _ s hs ?_
    rw [variablesOf_append, variablesOf_declare, if_pos rfl]
    exact List.subset_append_right _ _
  exact hquiet.bind fun b => hf b scope outer loops _ hloops

/-- A use of a variable by a node. -/
theorem emitSlot (op : Opcode) (pos : Position) (x : Bytes) :
    Checks c c inside (some pos) [.use pos c.owner x] (emitSlot op x) := by
  intro scope outer loops before _
  refine Ensures.get fun s hs => ?_
  rw [firstOffence?_single, offence?]
  by_cases hx : .declare c.owner x ∈ before
  · obtain ⟨slot, hslot⟩ := hs.resolve_ok (mem_variablesOf.mpr hx)
    rw [hslot, if_pos hx]
    exact ⟨rfl, hs.quiet (fun _ => rfl) rfl rfl rfl⟩
  · rw [hs.resolve_error (mt mem_variablesOf.mp hx), if_neg hx]
    exact ⟨rfl, hs.loops⟩

/-- A break, which a loop around it allows. -/
theorem leave (pos : Position) :
    Checks c c inside (some pos) [.leave pos inside]
      (do emitJump .jump (← lift (← get).symbols.loopStop)) := by
  intro scope outer loops before hloops
  refine Ensures.get fun s hs => ?_
  rw [firstOffence?_single, offence?]
  unfold Symbols.loopStop
  rw [hs.loops]
  cases loops with
  | nil =>
    obtain rfl : inside = false := by simpa using hloops
    exact ⟨rfl, hs.loops⟩
  | cons loop loops =>
    obtain rfl : inside = true := by simpa using hloops
    exact ⟨rfl, hs.quiet (fun _ => rfl) rfl rfl rfl⟩

/-- A loop allows breaks. -/
theorem inLoop {x : Generate α} (start stop : Bytes) (hx : Checks c c' true p ms x) :
    Checks c c' inside p ms (inLoop start stop x) := by
  intro scope outer loops before _ s hs
  have hx := hx scope outer (⟨start, stop⟩ :: loops) before rfl
    { s with symbols := s.symbols.enterLoop start stop }
    { hs with loops := congrArg (_ :: ·) hs.loops }
  unfold Generate.inLoop
  cases hr : x { s with symbols := s.symbols.enterLoop start stop } with
  | ok a s' =>
    rw [hr] at hx
    exact ⟨hx.1, { hx.2 with loops := congrArg List.tail hx.2.loops }⟩
  | error e s' =>
    rw [hr] at hx
    exact ⟨hx.1, congrArg List.tail hx.2⟩

/-- The index of a counting loop is declared, behind the two labels of the loop. -/
theorem index (index : Bytes) {f : Nat → Generate α}
    (hf : ∀ slot, Checks (c.label (if index.isEmpty then 3 else 2)) c' inside p ms (f slot)) :
    Checks (c.label 2) c' inside p (.declare c.owner (c.indexName index) :: ms) (do
      let name ← indexVariable index
      let _ ← Generate.declareVariable name
      let slot ← lift ((← get).symbols.resolve name)
      f slot) := by
  have hnamed (name : Bytes) :
      Checks (c.label (if index.isEmpty then 3 else 2)) c' inside p (.declare c.owner name :: ms)
        (do
          let _ ← Generate.declareVariable name
          let slot ← lift ((← get).symbols.resolve name)
          f slot) := by
    refine introduce [name] (x := do lift ((← get).symbols.resolve name)) (declareVariable name)
      ?_ hf
    intro scope outer loops before s hs hname
    obtain ⟨slot, hslot⟩ := hs.resolve_ok (hname List.mem_cons_self)
    refine ⟨slot, s, ?_, rfl, rfl⟩
    change lift (s.symbols.resolve name) s = _
    rw [hslot]
    rfl
  unfold indexVariable Cursor.indexName
  by_cases hindex : index.isEmpty = true
  · rw [if_pos hindex, if_pos hindex]
    rw [if_pos hindex] at hnamed
    intro scope outer loops before hloops s hs
    -- The hidden name is made of the third label of the loop.
    have hname : "<" ++ generatedLabel (s.labels + 1) "index" ++ ">" =
        hiddenName (c.labels + 3) := by
      rw [hs.labels]
      rfl
    rw [← hname]
    exact hnamed _ scope outer loops before hloops { s with labels := s.labels + 1 }
      { hs with labels := congrArg (· + 1) hs.labels }
  · rw [if_neg hindex, if_neg hindex]
    rw [if_neg hindex] at hnamed
    exact hnamed index

/-- A function is opened, a generator comes past mentions in it, and it is closed again. -/
theorem frame (name : Bytes) {x : Generate Unit} (hx : Checks c c' inside p ms x)
    (howner : c.owner = c.functions) (outer : List Scope) (hloops : loops.isEmpty = !inside)
    (before : List Mention) (hfresh : ∀ o, c.owner ≤ o → variablesOf o before = []) :
    Ensures (fun s => s.symbols.scopes = outer ∧ s.symbols.loops = loops ∧ s.labels = c.labels)
      (fun _ s => firstOffence? before ms = none ∧
        (s.symbols.scopes = outer ∧ s.symbols.loops = loops ∧ s.labels = c'.labels) ∧
        ∀ o, c'.functions < o → variablesOf o (before ++ ms) = [])
      (fun e s => firstOffence? before ms = some (e.within p) ∧ s.symbols.loops = loops)
      (do
        let place ← openFrame name
        x
        closeFrame place) := by
  -- Opening gives the function a scope without variables, as nothing was declared under its number.
  have hopen : Ensures
      (fun s => s.symbols.scopes = outer ∧ s.symbols.loops = loops ∧ s.labels = c.labels)
      (fun _ => Compilation.Knows name outer loops c before)
      (fun e s => firstOffence? before ms = some (e.within p) ∧ s.symbols.loops = loops)
      (openFrame name) := by
    rintro s ⟨hscopes, hloops, hlabels⟩
    refine ⟨?_, hloops, hlabels, Nat.le_of_eq howner, fun o ho => hfresh o (by omega)⟩
    rw [hfresh c.owner (Nat.le_refl _), ← hscopes]
    rfl
  refine hopen.bind fun place => Ensures.bind (hx name outer loops before hloops) fun _ =>
    Ensures.get fun s hs => ?_
  obtain ⟨hnone, hs⟩ := hs
  -- The scope on top is that of the function, since all those opened in between are closed.
  have hexit : s.symbols.exit = .ok (⟨name, (variablesOf c'.owner (before ++ ms)).toArray⟩,
      { s.symbols with scopes := outer }) := by
    unfold Symbols.exit
    rw [hs.scopes]
  rw [hexit]
  exact ⟨hnone, ⟨rfl, hs.loops, hs.labels⟩, hs.fresh⟩

/-- A function has a scope of its own, and leaves that of the function around it as it was. -/
theorem function (name stop : Bytes) {x : Generate Unit} (hx : Checks c.enter c' inside p ms x)
    (hms : c.owner ≤ c.functions → variablesOf c.owner ms = [])
    (hle : c.functions ≤ c'.functions) :
    Checks (c.label 1) { c' with owner := c.owner } inside p ms
      ((do
        let place ← openFrame name
        x
        closeFrame place) >>= fun _ => mark stop) := by
  intro scope outer loops before hloops s hs
  -- The number of the function is a new one, so nothing was declared in it.
  have hfresh (o : Nat) (ho : c.enter.owner ≤ o) : variablesOf o before = [] := hs.fresh o ho
  refine (hx.frame name rfl _ hloops before hfresh).bind
    (fun _ => Ensures.modify fun s' hs' => ?_) s ⟨hs.scopes, hs.loops, hs.labels⟩
  obtain ⟨hnone, ⟨hscopes, hloops, hlabels⟩, hlater⟩ := hs'
  refine ⟨hnone, ?_, hloops, hlabels, Nat.le_trans hs.owner_le hle, hlater⟩
  rw [variablesOf_append, hms hs.owner_le, List.append_nil]
  exact hscopes

end Generate.Checks

open Generate (Checks)
open Generate.Checks

mutual

/-- The code of a filled expression comes past its mentions. -/
theorem Expr.Filled.checks (e : Expr Cell) (h : e.Filled) (c : Cursor) (inside : Bool)
    (p : Option Position) : Checks c c inside p (e.mentions c.owner) e.generate := by
  match e with
  | .absent => exact h.elim
  | .literal _ v => exact loadConstant v
  | .load pos x => exact (emitSlot .load pos x).located pos
  | .element pos x row col =>
    exact ((h.1.checks row c inside _).bind fun _ => (h.2.checks col c inside _).bind fun _ =>
      emitSlot .readArray pos x).located pos
  | .newArray pos rows cols fill =>
    exact ((h.1.checks rows c inside _).bind fun _ => (h.2.checks cols c inside _).followed fun _ =>
      (loadConstant _).after fun _ => emit _).located pos
  | .call pos name args =>
    exact ((Expr.AllFilled.checks args h c inside _).followed fun _ => emit _).located pos
  | .binary pos op left right =>
    obtain ⟨hop, hl, hr⟩ := h
    obtain ⟨o, ho⟩ := Operator.exists_opcode? hop
    unfold Expr.generate
    rw [ho]
    exact ((hl.checks left c inside _).bind fun _ => (hr.checks right c inside _).followed fun _ =>
      emit _).located pos
  | .negation pos operand =>
    exact ((Expr.Filled.checks operand h c inside _).followed fun _ => emit _).located pos

/-- Arguments check what they mention. -/
theorem Expr.AllFilled.checks (es : List (Expr Cell)) (h : Expr.AllFilled es) (c : Cursor)
    (inside : Bool) (p : Option Position) :
    Checks c c inside p (Expr.argumentMentions c.owner es) (Expr.generateArguments es) := by
  match es with
  | [] => exact Checks.pure ()
  | e :: es =>
    exact (Expr.AllFilled.checks es h.2 c inside p).bind fun _ => h.1.checks e c inside p

end

mutual

/-- The code of a filled statement comes past its mentions. -/
theorem Stmt.Filled.checks (s : Stmt Cell) (h : s.Filled) (c : Cursor) (inside : Bool)
    (p : Option Position) : Checks c (c.past s) inside p (s.mentions c inside) s.generate := by
  match s with
  | .absent => exact Checks.pure ()
  | .block _ body => exact Stmt.AllFilled.checks body h c inside p
  | .declare pos x value =>
    exact ((declareVariable x).bind fun _ =>
      (Expr.Filled.checks value h c inside _).followed fun _ => emit _).located pos
  | .assign pos x value =>
    exact ((Expr.Filled.checks value h c inside _).bind fun _ =>
      emitSlot .store pos x).located pos
  | .assignElement pos x row col value =>
    exact ((h.1.checks row c inside _).bind fun _ => (h.2.1.checks col c inside _).bind fun _ =>
      (h.2.2.checks value c inside _).bind fun _ => emitSlot .writeArray pos x).located pos
  | .branch pos cond yes no =>
    obtain ⟨hc, hy, hn⟩ := h
    rw [Cursor.past_branch]
    by_cases hno : no.isAbsent = true
    · obtain rfl := Stmt.eq_absent hno
      exact ((newLabel _).after fun stop => (hc.checks cond _ inside _).bind fun _ =>
        (emit _).after fun _ => (hy.checks yes (c.label 1) inside _).bind fun _ =>
        (emit _).after fun _ => emit _).located pos
    · unfold Stmt.generate Stmt.mentions
      simp only [if_neg hno]
      exact ((newLabel _).after fun stop => (newLabel _).after fun _ =>
        (hc.checks cond _ inside _).bind fun _ => (emit _).after fun _ =>
        (hy.checks yes (c.label 2) inside _).bind fun _ => (emit _).after fun _ =>
        (emit _).after fun _ => (hn.checks no _ inside _).followed fun _ => emit _).located pos
  | .whileLoop pos cond body =>
    rw [Cursor.past_whileLoop]
    refine ((newLabel _).after fun start => (newLabel _).after fun stop =>
      inLoop start stop ?_).located pos
    exact (emit _).after fun _ => (h.1.checks cond (c.label 2) true _).bind fun _ =>
      (emit _).after fun _ => (h.2.checks body (c.label 2) true _).followed fun _ =>
      (emit _).after fun _ => emit _
  | .countLoop pos index count body =>
    rw [Cursor.past_countLoop]
    refine ((newLabel _).after fun start => (newLabel _).after fun stop =>
      inLoop start stop (Checks.index (c := c) index fun slot => ?_)).located pos
    -- The start, the test, the body and the increment.
    exact (loadConstant _).after fun _ => (emit _).after fun _ => (emit _).after fun _ =>
      (emit _).after fun _ => (h.1.checks count _ true _).bind fun _ => (emit _).after fun _ =>
      (emit _).after fun _ => (h.2.checks body _ true _).followed fun _ => (emit _).after fun _ =>
      (loadConstant _).after fun _ => (emit _).after fun _ => (emit _).after fun _ =>
      (emit _).after fun _ => emit _
  | .leave pos => exact (Checks.leave pos).located pos
  | .giveBack pos value =>
    by_cases habsent : value.isAbsent = true
    · obtain rfl := Expr.eq_absent habsent
      exact giveBackFalse
    · have hvalue : value.Filled := h.resolve_left habsent
      unfold Stmt.generate
      rw [if_neg habsent]
      exact ((hvalue.checks value c inside _).followed fun _ => emit _).located pos
  | .define pos name params body =>
    rw [Cursor.past_define]
    have hbody := introduce params (declareAll params)
      (fun _ _ _ _ _ hs hparams => hs.storeAll hparams) fun _ =>
      (Stmt.Filled.checks body h c.enter inside (some pos)).followed fun _ => giveBackFalse
    -- Nothing in the function is declared in the one around it.
    have hnone (hle : c.owner ≤ c.functions) : variablesOf c.owner
        (params.map (.declare c.enter.owner) ++ body.mentions c.enter inside) = [] := by
      have howner : c.enter.owner ≠ c.owner := Nat.ne_of_gt (Nat.lt_succ_of_le hle)
      rw [variablesOf_append, variablesOf_declare, if_neg howner,
        body.variablesOf_mentions c.enter inside howner (Nat.le_succ_of_le hle)]
      rfl
    refine ((newLabel _).after fun stop => (emit _).after fun _ =>
      (Checks.define name _ _).after fun _ => (emit _).after fun _ => ?_).located pos
    have hfunction := hbody.function name stop hnone
      (Nat.le_add_right_of_le (Nat.le_succ c.functions))
    simp only [bind_assoc] at hfunction
    exact hfunction
  | .perform pos name args =>
    exact ((Expr.AllFilled.checks args h c inside _).followed fun _ => (emit _).after fun _ =>
      emit _).located pos

/-- Statements check what they mention. -/
theorem Stmt.AllFilled.checks (ss : List (Stmt Cell)) (h : Stmt.AllFilled ss) (c : Cursor)
    (inside : Bool) (p : Option Position) :
    Checks c (c.pastAll ss) inside p
      (Stmt.allMentions ss c inside) (Stmt.generateAll ss) := by
  match ss with
  | [] => exact Checks.pure ()
  | s :: ss =>
    exact ((h.1.checks s c inside p).bind fun _ =>
      Stmt.AllFilled.checks ss h.2 (c.past s) inside p).of_eq (c.pastAll_cons s ss).symm

end

/-- Generating the code of a filled tree comes past its mentions, and leaves nothing open but the
scopes that are open when it fails. -/
theorem Tree.Filled.generate_mentions (h : t.Filled)
    (hms : Stmt.allMentions t.body ⟨0, 0, s.labels⟩ (!s.symbols.loops.isEmpty) = ms) :
    ResultHas
      (fun _ s' => firstOffence? [] ms = none ∧ s'.symbols.scopes = s.symbols.scopes ∧
        s'.symbols.loops = s.symbols.loops)
      (fun e s' => firstOffence? [] ms = some e ∧ s'.symbols.loops = s.symbols.loops)
      (t.generate s) := by
  subst hms
  have hbody := (Stmt.AllFilled.checks t.body h ⟨0, 0, s.labels⟩ (!s.symbols.loops.isEmpty)
    none).followed fun _ => giveBackFalse
  have hframe := hbody.frame programScope rfl s.symbols.scopes (Bool.not_not _).symm []
    (fun _ _ => rfl) s ⟨rfl, rfl, rfl⟩
  simp only [bind_assoc] at hframe
  refine hframe.imp (fun _ s' hs' => ⟨hs'.1, hs'.2.1.1, hs'.2.1.2.1⟩) fun e s' hs' => ?_
  rwa [CompileError.within_none] at hs'

/-- Whether a fault is one of the program, not of the way in which it was built. -/
def CompileFault.isOfProgram : CompileFault → Bool
  | .variableNotFound _ => true
  | .breakOutsideLoop => true
  | _ => false

/-- Generating the code of a filled tree fails only for a fault of the program. -/
theorem Tree.Filled.generate (h : t.Filled) {c c' : Compilation} {e : CompileError}
    (hfail : t.generate c = .error e c') : e.fault.isOfProgram = true := by
  have hresult := h.generate_mentions (s := c) rfl
  rw [hfail] at hresult
  obtain ⟨before, m, after, -, -, hm⟩ := (firstOffence?_spec wellScoped_nil _).2 e hresult.1
  cases m with
  | declare owner name => cases hm
  | use pos owner name =>
    cases (Option.ite_none_left_eq_some.mp hm).2
    rfl
  | leave pos inside =>
    cases (Option.ite_none_left_eq_some.mp hm).2
    rfl

/-- The code of a tree that was read is generated if and only if the tree is well scoped, and all
scopes and loops are closed then. Otherwise the first mention that offends is reported with the
position of its node, and all loops are closed. -/
theorem generate_of_read {source : Bytes} {tree : Tree Datum} (hread : Tree.read source = .ok tree)
    (st : Store) (imports : List Import) :
    let t := (tree.store st).1
    let s := ({} : Compilation).declareImports imports
    ((∃ s', t.generate s = .ok () s') ↔ WellScoped t.mentions) ∧
      (∀ s', t.generate s = .ok () s' →
        s'.symbols.scopes = s.symbols.scopes ∧ s'.symbols.loops = s.symbols.loops) ∧
      ∀ e s', t.generate s = .error e s' →
        FirstOffence t.mentions e ∧ s'.symbols.loops = s.symbols.loops := by
  intro t s
  have hfilled : t.Filled := (Tree.read_filled hread).store st
  -- Imports open no loop, so the program is outside of all loops.
  have hms : Stmt.allMentions t.body ⟨0, 0, s.labels⟩ (!s.symbols.loops.isEmpty) = t.mentions := by
    rw [show s.symbols.loops = [] from Symbols.hosted_loops imports]
    rfl
  have hresult := hfilled.generate_mentions hms
  have hspec := firstOffence?_spec wellScoped_nil t.mentions
  cases hgenerate : t.generate s with
  | ok a s' =>
    rw [hgenerate] at hresult
    obtain ⟨hnone, hclosed⟩ := hresult
    refine ⟨iff_of_true ⟨s', rfl⟩ (hspec.1 hnone), fun s'' hs'' => ?_, fun e s'' hs'' => ?_⟩
    · cases hs''
      exact hclosed
    · cases hs''
  | error e s' =>
    rw [hgenerate] at hresult
    obtain ⟨hsome, hclosed⟩ := hresult
    refine ⟨iff_of_false ?_ ?_, fun s'' hs'' => ?_, fun e' s'' hs'' => ?_⟩
    · rintro ⟨s'', hs''⟩
      cases hs''
    · intro hscoped
      rw [hscoped.firstOffence?] at hsome
      cases hsome
    · cases hs''
    · cases hs''
      exact ⟨hspec.2 e hsome, hclosed⟩

/-- A tree with a counting loop whose index has no name. A function in the loop leaves it, declares
a variable in a branch and sets it behind the branch to one that only the program has. -/
def Tree.unbound : Tree Datum where
  pos := ⟨1, 1⟩
  body :=
    [.declare ⟨1, 1⟩ "y" (.literal ⟨1, 9⟩ (.integer 1)),
      .countLoop ⟨2, 1⟩ "" (.load ⟨2, 8⟩ "y") (.define ⟨3, 3⟩ "f" ["x"] (.block ⟨3, 15⟩
        [.leave ⟨4, 5⟩,
          .branch ⟨5, 5⟩ (.load ⟨5, 8⟩ "x") (.declare ⟨5, 12⟩ "z" (.load ⟨5, 20⟩ "z")) .absent,
          .assignElement ⟨6, 5⟩ "w" (.load ⟨6, 7⟩ "z") (.load ⟨6, 10⟩ "x")
            (.call ⟨6, 15⟩ "f" [.load ⟨6, 17⟩ "v", .load ⟨6, 20⟩ "y"])])),
      .leave ⟨8, 1⟩]

/-- The file of the tree. -/
def Tree.unboundSource : Bytes :=
  ((Tree.unbound.store .empty).1.write (Tree.unbound.store .empty).2).toOption.getD []

/-- The fault in a tree with an unbound name is told. -/
theorem generate_of_read_unbound : ∃ tree, Tree.read Tree.unboundSource = .ok tree ∧
    ∃ s', (tree.store .empty).1.generate (({} : Compilation).declareImports []) =
        .error ⟨some ⟨6, 20⟩, .variableNotFound "y"⟩ s' ∧ s'.symbols.loops = [] := by
  have hcheck : (Tree.read Tree.unboundSource).toOption.any (fun tree =>
      decide (firstOffence? [] (tree.store .empty).1.mentions =
        some ⟨some ⟨6, 20⟩, .variableNotFound "y"⟩)) = true := by
    decide +kernel
  cases hread : Tree.read Tree.unboundSource with
  | error e =>
    rw [hread] at hcheck
    cases hcheck
  | ok tree =>
    rw [hread] at hcheck
    have hoffence := of_decide_eq_true hcheck
    obtain ⟨hiff, -, hfail⟩ := generate_of_read hread .empty []
    cases hgenerate : (tree.store .empty).1.generate (({} : Compilation).declareImports []) with
    | ok a s' =>
      rw [(hiff.mp ⟨s', hgenerate⟩).firstOffence?] at hoffence
      cases hoffence
    | error e s' =>
      obtain ⟨hfirst, hclosed⟩ := hfail e s' hgenerate
      rw [hfirst.firstOffence?] at hoffence
      cases hoffence
      exact ⟨tree, rfl, s', hgenerate, hclosed⟩

end StackScript
