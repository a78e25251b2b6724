import Mathlib.Data.List.Nodup
import StackScript.Proofs.Compile.Signatures

/-!
# Histories of symbol tables

A symbol table is driven by operations in any order: functions and loops are opened and closed, also
where none is open, variables are declared and looked up, and functions are defined, also again.
What the table answers is told by the history of these operations alone, without any stack or map:
a scope that is open is found by going back in the history past those that were closed since
(`openScope`, `openLoop`), and what is known of a function are its first and its latest definition
(`definedNames`, `latestCounts?`).

Histories are written with the latest operation first.
-/

namespace StackScript

variable {name : Bytes} {xs : List Bytes} {scopes : List Scope} {inside past : List SymbolAction}
  {n : Nat} {f : Signature} {a : SymbolAction} {s : Symbols}

/-- An operation on a symbol table. -/
inductive SymbolAction
  /-- Opens a function. -/
  | enter (name : Bytes)
  /-- Closes the innermost function. -/
  | exit
  /-- Asks for the innermost function. -/
  | current
  /-- Declares a variable. -/
  | declare (name : Bytes)
  /-- Asks for the slot of a variable. -/
  | resolve (name : Bytes)
  /-- Opens a loop. -/
  | enterLoop (start stop : Bytes)
  /-- Closes the innermost loop. -/
  | exitLoop
  /-- Asks for the end of the innermost loop. -/
  | loopStop
  /-- Defines a function. -/
  | define (name : Bytes) (declared minimum : Int)
deriving DecidableEq

namespace SymbolAction

/-- Whether the operation opens a function. -/
def entersFunction : SymbolAction → Bool
  | enter _ => true
  | _ => false

/-- Whether the operation closes a function. -/
def exitsFunction : SymbolAction → Bool
  | exit => true
  | _ => false

/-- Whether the operation opens a loop. -/
def entersLoop : SymbolAction → Bool
  | enterLoop _ _ => true
  | _ => false

/-- Whether the operation closes a loop. -/
def exitsLoop : SymbolAction → Bool
  | exitLoop => true
  | _ => false

/-- Whether the operation is about the innermost function. -/
def needsScope : SymbolAction → Bool
  | exit | current | declare _ | resolve _ => true
  | _ => false

/-- The name of the function that the operation defines. -/
def defines? : SymbolAction → Option Bytes
  | define name _ _ => some name
  | _ => none

end SymbolAction

/-- Whether a fault says that no function is open. -/
def CompileFault.isNoScope : CompileFault → Bool
  | noScope | declareOutside _ | resolveOutside _ => true
  | _ => false

/-- The fault of an operation that fails. -/
def faultOf? {α : Type} : Except CompileFault α → Option CompileFault
  | .ok _ => none
  | .error f => some f

namespace Symbols

/-- The table after an operation. One that fails changes nothing. -/
def perform (s : Symbols) : SymbolAction → Symbols
  | .enter name => s.enter name
  | .exit => (s.exit.map Prod.snd).toOption.getD s
  | .declare name => ((s.declare name).map Prod.snd).toOption.getD s
  | .enterLoop start stop => s.enterLoop start stop
  | .exitLoop => s.exitLoop
  | .define name declared minimum => s.define name declared minimum
  | .current | .resolve _ | .loopStop => s

/-- The fault of an operation on the table. -/
def fault? (s : Symbols) : SymbolAction → Option CompileFault
  | .exit => faultOf? s.exit
  | .current => faultOf? s.current
  | .declare name => faultOf? (s.declare name)
  | .resolve name => faultOf? (s.resolve name)
  | .loopStop => faultOf? s.loopStop
  | .enter _ | .enterLoop _ _ | .exitLoop | .define _ _ _ => none

/-- The table that a history leads to. -/
def after : List SymbolAction → Symbols
  | [] => {}
  | a :: past => (after past).perform a

end Symbols

/-! ## What a history tells -/

/-- The number of functions that are open. -/
def openFunctions : List SymbolAction → Nat
  | [] => 0
  | a :: past =>
    if a.entersFunction then openFunctions past + 1
    else if a.exitsFunction then openFunctions past - 1
    else openFunctions past

/-- The function around the `k` innermost that are open: its name, and the variables declared in it
in order. -/
def openScope : Nat → List SymbolAction → Option (Bytes × List Bytes)
  | _, [] => none
  | k, .exit :: past => openScope (k + 1) past
  | 0, .enter name :: _ => some (name, [])
  | k + 1, .enter _ :: past => openScope k past
  | 0, .declare x :: past => (openScope 0 past).map fun scope => (scope.1, scope.2 ++ [x])
  | k, _ :: past => openScope k past

/-- The loop around the `k` innermost that are open. -/
def openLoop : Nat → List SymbolAction → Option LoopLabels
  | _, [] => none
  | k, .exitLoop :: past => openLoop (k + 1) past
  | 0, .enterLoop start stop :: _ => some ⟨start, stop⟩
  | k + 1, .enterLoop _ _ :: past => openLoop k past
  | k, _ :: past => openLoop k past

/-- The names of the functions that were defined, in the order of their first definitions. -/
def definedNames (past : List SymbolAction) : List Bytes :=
  (past.reverse.filterMap SymbolAction.defines?).eraseDups

/-- The numbers of parameters and of necessary arguments in the latest definition of a function. -/
def latestCounts? (name : Bytes) : List SymbolAction → Option (Int × Int)
  | [] => none
  | .define other declared minimum :: past =>
    if other = name then some (declared, minimum) else latestCounts? name past
  | _ :: past => latestCounts? name past

/-- The number of scopes that a piece of a history opens and leaves open. There is none if it closes
one that was open before. -/
def pending (opens closes : SymbolAction → Bool) : List SymbolAction → Option Nat
  | [] => some 0
  | a :: inside =>
    (pending opens closes inside).bind fun n =>
      if opens a then some (n + 1)
      else if closes a then if n = 0 then none else some (n - 1)
      else some n

/-- What a symbol table answers is what a history tells. -/
structure Symbols.Follows (past : List SymbolAction) (s : Symbols) : Prop where
  /-- The functions are those that were defined, in the order of their first definitions. -/
  names : s.functions.map Signature.name = definedNames past
  /-- Their indices count them. -/
  dispatch : s.functions.map Signature.dispatch = List.range s.functions.length
  /-- Their counts are those of the latest definition. -/
  counts : ∀ f ∈ s.functions, latestCounts? f.name past = some (f.declared, f.minimum)
  /-- A function is found by its name. -/
  found : ∀ name f, s.function? name = some f ↔ f ∈ s.functions ∧ f.name = name
  /-- However a map goes through the functions and whatever sorts them by their indices, they come
  out in order. -/
  listed : ∀ iterated sorted : List Signature, iterated.Perm s.functions → sorted.Perm iterated →
    sorted.Pairwise (fun f g => f.dispatch ≤ g.dispatch) → sorted = s.functions
  /-- The innermost function that is open can be asked for. -/
  current : ∀ name xs, openScope 0 past = some (name, xs) → s.current = .ok ⟨name, xs.toArray⟩
  /-- It can be closed. -/
  exit : ∀ name xs, openScope 0 past = some (name, xs) →
    s.exit = .ok (⟨name, xs.toArray⟩, s.perform .exit)
  /-- A declaration gives the number of earlier declarations in it. -/
  declare : ∀ name xs x, openScope 0 past = some (name, xs) →
    s.declare x = .ok (xs.length, s.perform (.declare x))
  /-- A variable has the slot of its first declaration in it. -/
  resolve : ∀ name xs x k, openScope 0 past = some (name, xs) →
    (s.resolve x = .ok k ↔ xs[k]? = some x ∧ x ∉ xs.take k)
  /-- A variable is not found if it is not declared in it. -/
  missing : ∀ name xs x, openScope 0 past = some (name, xs) →
    (s.resolve x = .error (.variableNotFound x) ↔ x ∉ xs)
  /-- The end of the innermost loop is that of the loop that is open, if one is. -/
  loopStop : s.loopStop =
    match openLoop 0 past with
    | some labels => .ok labels.stop
    | none => .error .breakOutsideLoop
  /-- There is an innermost function exactly if one is open. -/
  opened : openScope 0 past = none ↔ openFunctions past = 0
  /-- That no function is open is the fault of exactly the operations on the innermost function, and
  of these exactly if none is open. -/
  noScope : ∀ a, (∃ f, s.fault? a = some f ∧ f.isNoScope = true) ↔
    a.needsScope = true ∧ openFunctions past = 0

/-! ## Scopes and loops -/

namespace Symbols

/-- Leaving drops the inner scope. -/
theorem perform_exit_scopes (s : Symbols) : (s.perform .exit).scopes = s.scopes.tail := by
  obtain ⟨scopes, loops, functions⟩ := s
  cases scopes <;> rfl

/-- A declaration is put into the inner scope. -/
theorem perform_declare_scopes (s : Symbols) (x : Bytes) : (s.perform (.declare x)).scopes =
    s.scopes.modifyHead fun scope => { scope with slots := scope.slots.push x } := by
  obtain ⟨scopes, loops, functions⟩ := s
  cases scopes <;> rfl

/-- A definition opens and closes nothing. -/
theorem define_scopes_loops (s : Symbols) (name : Bytes) (declared minimum : Int) :
    (s.define name declared minimum).scopes = s.scopes ∧
      (s.define name declared minimum).loops = s.loops := by
  unfold define
  split <;> exact ⟨rfl, rfl⟩

/-- Opening, closing and declaring in functions leaves the loops. -/
theorem perform_loops (s : Symbols) (henter : a.entersLoop = false) (hexit : a.exitsLoop = false) :
    (s.perform a).loops = s.loops := by
  obtain ⟨scopes, loops, functions⟩ := s
  cases a with
  | enterLoop start stop => cases henter
  | exitLoop => cases hexit
  | define name declared minimum => exact (define_scopes_loops ..).2
  | exit => cases scopes <;> rfl
  | declare x => cases scopes <;> rfl
  | _ => rfl

/-- The operations on loops and signatures leave the functions that are open. -/
theorem perform_scopes (s : Symbols) (henter : a.entersFunction = false)
    (hscope : a.needsScope = false) : (s.perform a).scopes = s.scopes := by
  cases a with
  | enter name => cases henter
  | define name declared minimum => exact (define_scopes_loops ..).1
  | enterLoop start stop => rfl
  | exitLoop => rfl
  | loopStop => rfl
  | _ => cases hscope

/-- A function that is open, as the table holds it. -/
def scopeOf (scope : Bytes × List Bytes) : Scope := ⟨scope.1, scope.2.toArray⟩

/-- The functions that are open are those that a history tells. -/
theorem scopes_after (past : List SymbolAction) (k : Nat) :
    (after past).scopes[k]? = (openScope k past).map scopeOf := by
  induction past generalizing k with
  | nil => rfl
  | cons a past ih =>
    rw [after]
    cases a with
    | enter name =>
      cases k with
      | zero => rfl
      | succ k => exact ih k
    | exit =>
      -- What is behind a function that is closed was one further away before.
      rw [perform_exit_scopes, List.getElem?_tail, ih (k + 1), openScope]
    | declare x =>
      rw [perform_declare_scopes]
      have hfirst := ih 0
      cases hscopes : (after past).scopes with
      | nil =>
        have hnone := ih k
        rw [hscopes] at hnone hfirst
        cases k with
        | zero =>
          rw [openScope, Option.map_eq_none_iff.mp hnone.symm]
          rfl
        | succ k => exact hnone
      | cons scope scopes =>
        cases k with
        | zero =>
          rw [hscopes] at hfirst
          obtain ⟨found, hfound, rfl⟩ := Option.map_eq_some_iff.mp hfirst.symm
          simp [openScope, hfound, scopeOf]
        | succ k =>
          have hrest := ih (k + 1)
          rw [hscopes] at hrest
          exact hrest
    | define name declared minimum =>
      rw [perform_scopes _ rfl rfl, ih k]
      cases k <;> rfl
    | _ => cases k <;> exact ih _

/-- The loops that are open are those that a history tells. -/
theorem loops_after (past : List SymbolAction) (k : Nat) :
    (after past).loops[k]? = openLoop k past := by
  induction past generalizing k with
  | nil => rfl
  | cons a past ih =>
    rw [after]
    cases a with
    | enterLoop start stop =>
      cases k with
      | zero => rfl
      | succ k => exact ih k
    | exitLoop =>
      change (after past).loops.tail[k]? = _
      rw [List.getElem?_tail, ih (k + 1), openLoop]
    | _ =>
      rw [perform_loops _ rfl rfl, ih k]
      cases k <;> rfl

/-- As many functions are open as a history tells. -/
theorem length_scopes_after (past : List SymbolAction) :
    (after past).scopes.length = openFunctions past := by
  induction past with
  | nil => rfl
  | cons a past ih =>
    rw [after]
    cases a with
    | enter name => exact congrArg (· + 1) ih
    | exit =>
      rw [perform_exit_scopes, List.length_tail, ih]
      rfl
    | declare x =>
      rw [perform_declare_scopes, List.length_modifyHead, ih]
      rfl
    | define name declared minimum =>
      rw [perform_scopes _ rfl rfl, ih]
      rfl
    | _ => exact ih

/-- The functions around one that was opened stay as they are while it is not closed. -/
theorem scopes_within
    (h : pending SymbolAction.entersFunction SymbolAction.exitsFunction inside = some n) :
    (after (inside ++ .enter name :: past)).scopes.drop (n + 1) = (after past).scopes := by
  induction inside generalizing n with
  | nil =>
    cases h
    rfl
  | cons a inside ih =>
    obtain ⟨m, hm, hn⟩ := Option.bind_eq_some_iff.mp h
    have ih := ih hm
    rw [List.cons_append, after]
    cases a with
    | enter other =>
      cases hn
      exact ih
    | exit =>
      rw [perform_exit_scopes, List.drop_tail]
      change (if m = 0 then none else some (m - 1)) = some n at hn
      split at hn
      · cases hn
      · cases hn
        rwa [show m - 1 + 1 = m by omega]
    | declare x =>
      cases hn
      -- A declaration is in the innermost function, which is not one of those around.
      rw [perform_declare_scopes]
      cases hscopes : (after (inside ++ .enter name :: past)).scopes with
      | nil => rwa [hscopes] at ih
      | cons scope scopes => rwa [hscopes] at ih
    | define other declared minimum =>
      cases hn
      rwa [perform_scopes _ rfl rfl]
    | _ =>
      cases hn
      exact ih

/-- The loops around one that was opened stay as they are while it is not closed. -/
theorem loops_within {start stop : Bytes}
    (h : pending SymbolAction.entersLoop SymbolAction.exitsLoop inside = some n) :
    (after (inside ++ .enterLoop start stop :: past)).loops.drop (n + 1) = (after past).loops := by
  induction inside generalizing n with
  | nil =>
    cases h
    rfl
  | cons a inside ih =>
    obtain ⟨m, hm, hn⟩ := Option.bind_eq_some_iff.mp h
    have ih := ih hm
    rw [List.cons_append, after]
    cases a with
    | enterLoop start stop =>
      cases hn
      exact ih
    | exitLoop =>
      change (after _).loops.tail.drop (n + 1) = _
      rw [List.drop_tail]
      change (if m = 0 then none else some (m - 1)) = some n at hn
      split at hn
      · cases hn
      · cases hn
        rwa [show m - 1 + 1 = m by omega]
    | _ =>
      cases hn
      rwa [perform_loops _ rfl rfl]

/-! ## Signatures -/

/-- Only a definition changes the signatures. -/
theorem perform_functions (s : Symbols) (h : a.defines? = none) :
    (s.perform a).functions = s.functions := by
  obtain ⟨scopes, loops, functions⟩ := s
  cases a with
  | define name declared minimum => cases h
  | exit => cases scopes <;> rfl
  | declare x => cases scopes <;> rfl
  | _ => rfl

/-- Whether a name is found is whether it is one of the names. -/
theorem isSome_function? (s : Symbols) (name : Bytes) :
    (s.function? name).isSome = true ↔ name ∈ s.functions.map Signature.name := by
  unfold function?
  rw [List.find?_isSome, List.mem_map]
  simp

/-- A definition adds its name if it is a new one. -/
theorem names_define (s : Symbols) (name : Bytes) (declared minimum : Int) :
    (s.define name declared minimum).functions.map Signature.name =
      if name ∈ s.functions.map Signature.name then s.functions.map Signature.name
      else s.functions.map Signature.name ++ [name] := by
  unfold define
  by_cases h : (s.function? name).isSome = true
  · rw [if_pos h, if_pos ((s.isSome_function? name).mp h), List.map_map]
    refine List.map_congr_left fun f _ => ?_
    simp only [Function.comp_apply]
    split <;> rfl
  · rw [if_neg h, if_neg (mt (s.isSome_function? name).mpr h), List.map_append]
    rfl

/-- A definition keeps the indices and gives a new name the next one. -/
theorem dispatch_define (name : Bytes) (declared minimum : Int)
    (h : s.functions.map Signature.dispatch = List.range s.functions.length) :
    (s.define name declared minimum).functions.map Signature.dispatch =
      List.range (s.define name declared minimum).functions.length := by
  unfold define
  split
  · rw [List.length_map, ← h, List.map_map]
    refine List.map_congr_left fun f _ => ?_
    simp only [Function.comp_apply]
    split <;> rfl
  · rw [List.map_append, h, List.length_append, List.length_singleton, List.range_succ]
    rfl

/-- One more definition adds its name to those that were defined, if it is a new one. -/
theorem definedNames_define (name : Bytes) (declared minimum : Int) (past : List SymbolAction) :
    definedNames (.define name declared minimum :: past) =
      if name ∈ definedNames past then definedNames past else definedNames past ++ [name] := by
  unfold definedNames
  rw [List.reverse_cons, List.filterMap_append, List.eraseDups_append]
  generalize past.reverse.filterMap SymbolAction.defines? = names
  change names.eraseDups ++ (List.removeAll [name] names).eraseDups = _
  by_cases h : name ∈ names
  · simp [List.removeAll, List.mem_eraseDups, h]
  · simp [List.removeAll, List.mem_eraseDups, h, List.eraseDups_cons]

/-- The other operations define nothing. -/
theorem definedNames_of_none (h : a.defines? = none) (past : List SymbolAction) :
    definedNames (a :: past) = definedNames past := by
  unfold definedNames
  rw [List.reverse_cons, List.filterMap_append, List.filterMap_cons_none h, List.filterMap_nil,
    List.append_nil]

/-- The names of the functions are those that a history tells. -/
theorem names_after (past : List SymbolAction) :
    (after past).functions.map Signature.name = definedNames past := by
  induction past with
  | nil => rfl
  | cons a past ih =>
    rw [after]
    cases a with
    | define name declared minimum =>
      rw [definedNames_define, ← ih]
      exact names_define ..
    | _ =>
      rw [perform_functions _ rfl, ih]
      exact (definedNames_of_none rfl past).symm

/-- The indices of the functions count them. -/
theorem dispatch_after (past : List SymbolAction) :
    (after past).functions.map Signature.dispatch = List.range (after past).functions.length := by
  induction past with
  | nil => rfl
  | cons a past ih =>
    rw [after]
    cases a with
    | define name declared minimum => exact dispatch_define name declared minimum ih
    | _ => rwa [perform_functions _ rfl]

/-- The counts of a function are those of its latest definition. -/
theorem counts_after (past : List SymbolAction) :
    ∀ f ∈ (after past).functions, latestCounts? f.name past = some (f.declared, f.minimum) := by
  induction past with
  | nil => exact List.forall_mem_nil _
  | cons a past ih =>
    rw [after]
    cases a with
    | define name declared minimum =>
      intro f hf
      change f ∈ (define _ name declared minimum).functions at hf
      rw [latestCounts?]
      unfold define at hf
      split at hf
      · -- A function that was there gets the new counts, and the others keep theirs.
        obtain ⟨g, hg, rfl⟩ := List.mem_map.mp hf
        by_cases hname : g.name = name
        · simp [hname]
        · simpa [hname, Ne.symm hname] using ih g hg
      · rename_i hnew
        rcases List.mem_append.mp hf with hf | hf
        · have hne : name ≠ f.name := by
            intro hname
            rw [hname, isSome_function?] at hnew
            exact hnew (List.mem_map_of_mem hf)
          rw [if_neg hne]
          exact ih f hf
        · obtain rfl := List.mem_singleton.mp hf
          simp
    | _ =>
      rw [perform_functions _ rfl]
      exact ih

/-- The names of the functions are distinct. -/
theorem names_nodup_after (past : List SymbolAction) :
    ((after past).functions.map Signature.name).Nodup := by
  induction past with
  | nil => exact List.nodup_nil
  | cons a past ih =>
    rw [after]
    cases a with
    | define name declared minimum =>
      change ((define _ name declared minimum).functions.map _).Nodup
      rw [names_define]
      split
      · exact ih
      · rename_i hnew
        rw [← List.concat_eq_append]
        exact ih.concat hnew
    | _ => rwa [perform_functions _ rfl]

/-- Where names are distinct, a function is found by its name. -/
theorem function?_eq_some_iff (h : (s.functions.map Signature.name).Nodup) (name : Bytes)
    (f : Signature) : s.function? name = some f ↔ f ∈ s.functions ∧ f.name = name := by
  unfold function?
  constructor
  · intro hf
    have hname := List.find?_some hf
    exact ⟨List.mem_of_find?_eq_some hf, by simpa using hname⟩
  · rintro ⟨hf, rfl⟩
    obtain ⟨g, hg⟩ := Option.isSome_iff_exists.mp
      ((s.isSome_function? f.name).mpr (List.mem_map_of_mem hf))
    have hname : g.name = f.name := by simpa using List.find?_some hg
    rw [function?] at hg
    rw [hg, List.inj_on_of_nodup_map h (List.mem_of_find?_eq_some hg) hf hname]

/-- Functions whose indices count them are sorted in one way only. -/
theorem eq_functions_of_sorted
    (h : s.functions.map Signature.dispatch = List.range s.functions.length)
    {sorted : List Signature} (hperm : sorted.Perm s.functions)
    (hsorted : sorted.Pairwise fun f g => f.dispatch ≤ g.dispatch) : sorted = s.functions := by
  have hnodup : (s.functions.map Signature.dispatch).Nodup := by
    rw [h]
    exact List.nodup_range
  refine List.Perm.eq_of_pairwise (fun f g hf hg hle hge => ?_) hsorted ?_ hperm
  · exact List.inj_on_of_nodup_map hnodup (hperm.mem_iff.mp hf) hg (Nat.le_antisymm hle hge)
  · rw [← List.pairwise_map, h]
    exact List.pairwise_le_range

/-- Every operation keeps the index of a function. -/
theorem perform_dispatch (hnames : (s.functions.map Signature.name).Nodup) (a : SymbolAction)
    (h : s.function? name = some f) :
    ∃ f', (s.perform a).function? name = some f' ∧ f'.dispatch = f.dispatch := by
  by_cases ha : a.defines? = none
  · refine ⟨f, ?_, rfl⟩
    unfold function? at h ⊢
    rwa [perform_functions s ha]
  · cases a with
    | define other declared minimum =>
      by_cases hne : name = other
      · subst hne
        change ∃ f', (s.define name declared minimum).function? name = some f' ∧ _
        rw [define, if_pos (by rw [h]; rfl)]
        -- The old signature is changed in its place, with the index that it has.
        refine ⟨{ f with declared, minimum }, ?_, rfl⟩
        obtain ⟨hmem, hname⟩ := (function?_eq_some_iff hnames name f).mp h
        refine (function?_eq_some_iff ?_ name _).mpr ⟨List.mem_map.mpr ⟨f, hmem, ?_⟩, hname⟩
        · have hsame := names_define s name declared minimum
          rw [define, if_pos (by rw [h]; rfl), if_pos (hname ▸ List.mem_map_of_mem hmem)] at hsame
          rwa [hsame]
        · simp [hname]
      · exact ⟨f, (s.function?_define_of_ne hne declared minimum).trans h, rfl⟩
    | _ => exact absurd rfl ha

/-- A function keeps its index whatever operations come later. -/
theorem dispatch_stays (past later : List SymbolAction) (h : (after past).function? name = some f) :
    ∃ f', (after (later ++ past)).function? name = some f' ∧ f'.dispatch = f.dispatch := by
  induction later with
  | nil => exact ⟨f, h, rfl⟩
  | cons a later ih =>
    obtain ⟨g, hg, hdispatch⟩ := ih
    obtain ⟨f', hf', hdispatch'⟩ := perform_dispatch (names_nodup_after _) a hg
    exact ⟨f', hf', hdispatch'.trans hdispatch⟩

end Symbols

/-! ## Answers -/

namespace Symbols

/-- The innermost function that is open is the first of the table. -/
theorem scopes_of_openScope (h : openScope 0 past = some (name, xs)) :
    ∃ scopes, (after past).scopes = ⟨name, xs.toArray⟩ :: scopes := by
  have hfirst := scopes_after past 0
  rw [h] at hfirst
  cases hscopes : (after past).scopes with
  | nil =>
    rw [hscopes] at hfirst
    cases hfirst
  | cons scope scopes =>
    rw [hscopes] at hfirst
    cases hfirst
    exact ⟨scopes, rfl⟩

/-- The slot of a variable is the place of its first declaration. -/
theorem resolve_eq_ok_iff (h : s.scopes = ⟨name, xs.toArray⟩ :: scopes) (x : Bytes) (k : Nat) :
    s.resolve x = .ok k ↔ xs[k]? = some x ∧ x ∉ xs.take k := by
  have hplace : xs.findIdx? (· == x) = some k ↔ xs[k]? = some x ∧ x ∉ xs.take k := by
    rw [List.findIdx?_eq_some_iff_getElem]
    constructor
    · rintro ⟨hk, hx, hbefore⟩
      refine ⟨by rw [List.getElem?_eq_getElem hk]; simpa using hx, fun hmem => ?_⟩
      obtain ⟨j, hj, hget⟩ := List.mem_take_iff_getElem.mp hmem
      exact hbefore j (by omega) (by simpa using hget)
    · rintro ⟨hx, hbefore⟩
      obtain ⟨hk, hget⟩ := List.getElem?_eq_some_iff.mp hx
      refine ⟨hk, by simpa using hget, fun j hj hjx => hbefore ?_⟩
      exact List.mem_take_iff_getElem.mpr ⟨j, by omega, by simpa using hjx⟩
  rw [← hplace, resolve, h]
  simp only [List.findIdx?_toArray]
  cases xs.findIdx? (· == x) <;> simp

/-- A variable that is not declared in the innermost function is not found. -/
theorem resolve_eq_error_iff (h : s.scopes = ⟨name, xs.toArray⟩ :: scopes) (x : Bytes) :
    s.resolve x = .error (.variableNotFound x) ↔ x ∉ xs := by
  have hplace : xs.findIdx? (· == x) = none ↔ x ∉ xs := by
    rw [List.findIdx?_eq_none_iff]
    constructor
    · intro hall hmem
      simpa using hall x hmem
    · rintro hmem y hy
      simpa using fun he : y = x => hmem (he ▸ hy)
  rw [← hplace, resolve, h]
  simp only [List.findIdx?_toArray]
  cases xs.findIdx? (· == x) <;> simp

/-- That no function is open is the fault of the operations on the innermost function. -/
theorem fault?_isNoScope_iff (s : Symbols) (a : SymbolAction) :
    (∃ f, s.fault? a = some f ∧ f.isNoScope = true) ↔ a.needsScope = true ∧ s.scopes = [] := by
  obtain ⟨scopes, loops, functions⟩ := s
  cases a with
  | resolve x =>
    cases scopes with
    | nil => simp [fault?, faultOf?, resolve, CompileFault.isNoScope, SymbolAction.needsScope]
    | cons scope scopes =>
      cases hslot : scope.slots.findIdx? (· == x) <;>
        simp [fault?, faultOf?, resolve, hslot, CompileFault.isNoScope]
  | loopStop =>
    cases loops <;> simp [fault?, faultOf?, loopStop, CompileFault.isNoScope,
      SymbolAction.needsScope]
  | _ =>
    cases scopes <;> simp [fault?, faultOf?, exit, current, declare, CompileFault.isNoScope,
      SymbolAction.needsScope]

/-- The table that a history leads to answers what the history tells. -/
theorem after_follows (past : List SymbolAction) : (after past).Follows past where
  names := names_after past
  dispatch := dispatch_after past
  counts := counts_after past
  found := function?_eq_some_iff (names_nodup_after past)
  listed := by
    intro iterated sorted hiterated hperm hsorted
    exact eq_functions_of_sorted (dispatch_after past) (hperm.trans hiterated) hsorted
  current := by
    intro name xs h
    obtain ⟨scopes, hscopes⟩ := scopes_of_openScope h
    rw [current, hscopes]
  exit := by
    intro name xs h
    obtain ⟨scopes, hscopes⟩ := scopes_of_openScope h
    rw [perform, exit, hscopes]
    rfl
  declare := by
    intro name xs x h
    obtain ⟨scopes, hscopes⟩ := scopes_of_openScope h
    rw [perform, declare, hscopes]
    rfl
  resolve := by
    intro name xs x k h
    obtain ⟨scopes, hscopes⟩ := scopes_of_openScope h
    exact resolve_eq_ok_iff hscopes x k
  missing := by
    intro name xs x h
    obtain ⟨scopes, hscopes⟩ := scopes_of_openScope h
    exact resolve_eq_error_iff hscopes x
  loopStop := by
    rw [← loops_after past 0, loopStop]
    cases (after past).loops <;> rfl
  opened := by
    rw [← length_scopes_after, List.length_eq_zero_iff, ← Option.map_eq_none_iff,
      ← scopes_after past 0, List.getElem?_eq_none_iff, Nat.le_zero, List.length_eq_zero_iff]
  noScope := by
    intro a
    rw [fault?_isNoScope_iff, ← length_scopes_after, List.length_eq_zero_iff]

end Symbols

/-- Symbol tables. After any history of operations the table answers what the history tells. A
function that was defined keeps its index whatever operations follow. Closing a function or a loop
leaves those around it as they were when it was opened, whatever was opened and closed in
between. -/
theorem symbols_follow_history (past : List SymbolAction) :
    (Symbols.after past).Follows past ∧
    (∀ later name f, (Symbols.after past).function? name = some f →
      ∃ f', (Symbols.after (later ++ past)).function? name = some f' ∧
        f'.dispatch = f.dispatch) ∧
    (∀ inside name,
      pending SymbolAction.entersFunction SymbolAction.exitsFunction inside = some 0 →
      (Symbols.after (.exit :: inside ++ .enter name :: past)).scopes =
        (Symbols.after past).scopes) ∧
    ∀ inside start stop,
      pending SymbolAction.entersLoop SymbolAction.exitsLoop inside = some 0 →
      (Symbols.after (.exitLoop :: inside ++ .enterLoop start stop :: past)).loops =
        (Symbols.after past).loops := by
  refine ⟨Symbols.after_follows past, ?_, ?_, ?_⟩
  · intro later name f h
    exact Symbols.dispatch_stays past later h
  · intro inside name h
    rw [List.cons_append, Symbols.after, Symbols.perform_exit_scopes, ← List.drop_one]
    exact Symbols.scopes_within h
  · intro inside start stop h
    rw [List.cons_append, Symbols.after]
    change (Symbols.after _).loops.tail = _
    rw [← List.drop_one]
    exact Symbols.loops_within h

/-- A history with an exit where nothing is open, a name that is declared twice, a function inside
another, and a second definition. -/
def nestedHistory : List SymbolAction :=
  [.declare "a", .define "f" 2 0, .exit, .declare "c", .exitLoop, .enterLoop "l3" "l4", .enter "g",
    .enterLoop "l1" "l2", .define "h" 1 0, .declare "b", .declare "a", .enter "main",
    .define "f" (-1) 3, .exit]

/-- After this history a name has its first slot and a function its first index, with the counts of
the second definition, and closing another function inside leaves the slots as they are. -/
theorem symbols_follow_nestedHistory :
    openScope 0 nestedHistory = some ⟨"main", ["a", "b", "a"]⟩ ∧
    (Symbols.after nestedHistory).resolve "a" = .ok 0 ∧
    (Symbols.after nestedHistory).resolve "c" = .error (.variableNotFound "c") ∧
    (Symbols.after nestedHistory).loopStop = .ok "l2" ∧
    (Symbols.after nestedHistory).functions = [⟨"f", 2, 0, 0⟩, ⟨"h", 1, 0, 1⟩] ∧
    (Symbols.after
      (.exit :: [.exit, .declare "a", .enter "inner"] ++ .enter "outer" :: nestedHistory)).scopes =
      (Symbols.after nestedHistory).scopes := by
  obtain ⟨hfollows, -, hclosed, -⟩ := symbols_follow_history nestedHistory
  have hopen : openScope 0 nestedHistory = some ⟨"main", ["a", "b", "a"]⟩ := by decide
  refine ⟨hopen, (hfollows.resolve _ _ _ 0 hopen).mpr (by decide),
    (hfollows.missing _ _ _ hopen).mpr (by decide), hfollows.loopStop, by decide,
    hclosed [.exit, .declare "a", .enter "inner"] "outer" (by decide)⟩

end StackScript
