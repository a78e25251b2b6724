import StackScript.Proofs.Compile.Signatures
import StackScript.Proofs.Machine.Related
import StackScript.Proofs.Tree.Renaming

/-!
# Generating code for two trees

Code is generated for two trees that correspond, side by side. At every point the compilations have
the same code, labels, loops and functions, and the variables of each open function have the same
slots, since their names correspond one to one (`Compilation.Renamed`). The name of a hidden index
is made from the number of labels, so it is the same on both sides, and no variable of the tree has
it. A fault comes on both sides at the same point, and only its position and the variable that it
names may differ.
-/

namespace StackScript

/-! ## Kinds of faults -/

/-- The fault with the name of a variable left out. -/
def CompileFault.bare : CompileFault → CompileFault
  | .declareOutside _ => .declareOutside []
  | .resolveOutside _ => .resolveOutside []
  | .variableNotFound _ => .variableNotFound []
  | f => f

/-! ## Names in scopes -/

/-- Names of variables that correspond: one is renamed to the other, or both are the name of the
same hidden variable. -/
def NameMap.Pairs (σ : NameMap) (x y : Bytes) : Prop :=
  σ.Renames x y ∨ x = y ∧ isPlainName x = false

namespace NameMap.Pairs

variable {σ : NameMap} {x x' y y' : Bytes}

/-- Plain names that are paired are renamed. -/
theorem renames (h : σ.Pairs x y) (hx : isPlainName x = true) : σ.Renames x y := by
  refine h.resolve_right fun hhidden => ?_
  rw [hx] at hhidden
  cases hhidden.2

/-- Hidden names that are paired are equal. -/
theorem eq_of_hidden (h : σ.Pairs x y) (hx : isPlainName x = false) : x = y := by
  refine (h.resolve_left fun hrenames => ?_).1
  rw [(σ.plain hrenames).1] at hx
  cases hx

/-- Names that are paired are both plain or both hidden. -/
theorem isPlainName_eq (h : σ.Pairs x y) : isPlainName y = isPlainName x := by
  rcases h with h | ⟨rfl, -⟩
  · rw [(σ.plain h).1, (σ.plain h).2]
  · rfl

/-- Names are equal if and only if those that correspond to them are. -/
theorem eq_iff (h : σ.Pairs x y) (h' : σ.Pairs x' y') : x = x' ↔ y = y' := by
  cases hx : isPlainName x with
  | true =>
    constructor
    · rintro rfl
      exact σ.functional (h.renames hx) (h'.renames hx)
    · rintro rfl
      have hx' : isPlainName x' = true := by rw [← h'.isPlainName_eq, h.isPlainName_eq, hx]
      exact σ.injective (h.renames hx) (h'.renames hx')
  | false =>
    constructor
    · rintro rfl
      rw [← h.eq_of_hidden hx, ← h'.eq_of_hidden hx]
    · rintro rfl
      have hx' : isPlainName x' = false := by rw [← h'.isPlainName_eq, h.isPlainName_eq, hx]
      rw [h.eq_of_hidden hx, h'.eq_of_hidden hx']

end NameMap.Pairs

/-- A variable has the same slot under both names. -/
theorem findIdx?_of_pairs {σ : NameMap} {xs ys : List Bytes} (h : List.Forall₂ σ.Pairs xs ys)
    {x y : Bytes} (hxy : σ.Pairs x y) : ys.findIdx? (· == y) = xs.findIdx? (· == x) := by
  induction h with
  | nil => rfl
  | @cons x₁ y₁ xs ys hfirst _ ih =>
    have hsame : (y₁ == y) = (x₁ == x) := by
      rw [Bool.eq_iff_iff, beq_iff_eq, beq_iff_eq]
      exact (hfirst.eq_iff hxy).symm
    rw [List.findIdx?_cons, List.findIdx?_cons, hsame, ih]

/-- The variables of scopes correspond in the order of their slots. -/
def Scope.Renamed (σ : NameMap) (s s' : Scope) : Prop :=
  List.Forall₂ σ.Pairs s.slots.toList s'.slots.toList

namespace Scope.Renamed

variable {σ : NameMap} {s s' : Scope} {x x' : Bytes}

/-- Scopes that are renamed have as many slots. -/
theorem size_eq (h : s.Renamed σ s') : s'.slots.size = s.slots.size := by
  rw [← Array.length_toList, ← Array.length_toList]
  exact (List.Forall₂.length_eq h).symm

/-- Scopes stay renamed when paired names are declared. -/
theorem push (h : s.Renamed σ s') (hx : σ.Pairs x x') :
    Scope.Renamed σ { s with slots := s.slots.push x } { s' with slots := s'.slots.push x' } := by
  unfold Scope.Renamed
  rw [Array.toList_push, Array.toList_push]
  exact List.rel_append h (.cons hx .nil)

/-- Paired names have the same slot. -/
theorem findIdx?_eq (h : s.Renamed σ s') (hx : σ.Pairs x x') :
    s'.slots.findIdx? (· == x') = s.slots.findIdx? (· == x) := by
  have hlist := findIdx?_of_pairs h hx
  rw [← List.findIdx?_toArray, ← List.findIdx?_toArray, Array.toArray_toList,
    Array.toArray_toList] at hlist
  exact hlist

end Scope.Renamed

/-- The open functions correspond, each by a renaming of its own. -/
inductive Scope.AllRenamed : List NameMap → List Scope → List Scope → Prop
  | nil : Scope.AllRenamed [] [] []
  | cons {σ : NameMap} {σs : List NameMap} {s s' : Scope} {ss ss' : List Scope}
    (hs : s.Renamed σ s') (hss : Scope.AllRenamed σs ss ss') :
    Scope.AllRenamed (σ :: σs) (s :: ss) (s' :: ss')

/-- Symbols that differ in the names of variables only. -/
structure Symbols.Renamed (σs : List NameMap) (s s' : Symbols) : Prop where
  scopes : Scope.AllRenamed σs s.scopes s'.scopes
  loops : s'.loops = s.loops
  functions : s'.functions = s.functions

namespace Symbols.Renamed

variable {σ : NameMap} {σs : List NameMap} {s s' : Symbols} {x x' : Bytes}

/-- A function that is opened has no variables yet, so it may rename them in any way. -/
theorem enter (h : s.Renamed σs s') (σ : NameMap) (name : Bytes) :
    (s.enter name).Renamed (σ :: σs) (s'.enter name) :=
  { h with scopes := .cons .nil h.scopes }

/-- A function that is closed has as many variables on both sides. -/
theorem exit (h : s.Renamed (σ :: σs) s') : ∃ scope scope' t t',
    s.exit = .ok (scope, t) ∧ s'.exit = .ok (scope', t') ∧
      scope'.slots.size = scope.slots.size ∧ t.Renamed σs t' := by
  obtain ⟨scopes, loops, functions⟩ := s
  obtain ⟨scopes', loops', functions'⟩ := s'
  obtain ⟨hscopes, hloops, hfunctions⟩ := h
  cases hscopes with
  | cons hs hss => exact ⟨_, _, _, _, rfl, rfl, hs.size_eq, hss, hloops, hfunctions⟩

/-- A variable that is declared on both sides gets the same slot. -/
theorem declare (h : s.Renamed (σ :: σs) s') (hx : σ.Pairs x x') : ∃ slot t t',
    s.declare x = .ok (slot, t) ∧ s'.declare x' = .ok (slot, t') ∧ t.Renamed (σ :: σs) t' := by
  obtain ⟨scopes, loops, functions⟩ := s
  obtain ⟨scopes', loops', functions'⟩ := s'
  obtain ⟨hscopes, hloops, hfunctions⟩ := h
  cases hscopes with
  | @cons _ _ scope scope' ss ss' hs hss =>
    have hright : Symbols.declare ⟨scope' :: ss', loops', functions'⟩ x' =
        .ok (scope.slots.size,
          ⟨{ scope' with slots := scope'.slots.push x' } :: ss', loops', functions'⟩) := by
      rw [← hs.size_eq]
      rfl
    exact ⟨_, _, _, rfl, hright, ⟨.cons (hs.push hx) hss, hloops, hfunctions⟩⟩

/-- A variable is found on both sides, in the same slot, or on neither. -/
theorem resolve (h : s.Renamed (σ :: σs) s') (hx : σ.Pairs x x') :
    (∃ slot, s.resolve x = .ok slot ∧ s'.resolve x' = .ok slot) ∨
      s.resolve x = .error (.variableNotFound x) ∧
        s'.resolve x' = .error (.variableNotFound x') := by
  obtain ⟨scopes, loops, functions⟩ := s
  obtain ⟨scopes', loops', functions'⟩ := s'
  obtain ⟨hscopes, hloops, hfunctions⟩ := h
  cases hscopes with
  | @cons _ _ scope scope' ss ss' hs hss =>
    have hslot := hs.findIdx?_eq hx
    unfold Symbols.resolve
    dsimp only
    cases hfind : scope.slots.findIdx? (· == x) with
    | some slot =>
      rw [hfind] at hslot
      rw [hslot]
      exact .inl ⟨slot, rfl, rfl⟩
    | none =>
      rw [hfind] at hslot
      rw [hslot]
      exact .inr ⟨rfl, rfl⟩

/-- Symbols stay renamed when a loop is opened. -/
theorem enterLoop (h : s.Renamed σs s') (start stop : Bytes) :
    (s.enterLoop start stop).Renamed σs (s'.enterLoop start stop) :=
  { h with loops := congrArg (List.cons (LoopLabels.mk start stop)) h.loops }

/-- Symbols stay renamed when a loop is closed. -/
theorem exitLoop (h : s.Renamed σs s') : s.exitLoop.Renamed σs s'.exitLoop :=
  { h with loops := congrArg List.tail h.loops }

/-- A function is defined on both sides. -/
theorem define (h : s.Renamed σs s') (name : Bytes) (declared minimum : Int) :
    (s.define name declared minimum).Renamed σs (s'.define name declared minimum) := by
  have hknown : s'.function? name = s.function? name := by
    unfold Symbols.function?
    rw [h.functions]
  unfold Symbols.define
  rw [hknown]
  split
  · refine { h with functions := ?_ }
    dsimp only
    rw [h.functions]
  · refine { h with functions := ?_ }
    dsimp only
    rw [h.functions]

/-- The functions of the host are the same on both sides. -/
theorem hosted (imports : List Import) :
    (Symbols.hosted imports).Renamed [] (Symbols.hosted imports) := by
  have hrun : ∀ (imports : List Import) (s s' : Symbols), s.Renamed [] s' →
      (imports.foldl (fun s d => s.defineHost d.name d.minimum) s).Renamed []
        (imports.foldl (fun s d => s.defineHost d.name d.minimum) s') := by
    intro imports
    induction imports with
    | nil => exact fun _ _ h => h
    | cons d imports ih => exact fun s s' h => ih _ _ (h.define d.name hostArity d.minimum)
  exact hrun imports {} {} ⟨.nil, rfl, rfl⟩

/-- Once all functions are closed no variables are left. -/
theorem eq_of_closed (h : s.Renamed [] s') : s' = s := by
  obtain ⟨scopes, loops, functions⟩ := s
  obtain ⟨scopes', loops', functions'⟩ := s'
  obtain ⟨hscopes, rfl, rfl⟩ := h
  cases hscopes
  rfl

end Symbols.Renamed

/-- Compilations that differ in the names of variables and in the keys of arrays only. -/
structure Compilation.Renamed (ρ : Nat → Nat → Prop) (σs : List NameMap) (c c' : Compilation) :
    Prop where
  symbols : c.symbols.Renamed σs c'.symbols
  pool : Cell.AllRenamed ρ c.pool.entries.toList c'.pool.entries.toList
  code : c'.code = c.code
  labels : c'.labels = c.labels

/-! ## Constants -/

section

variable {ρ : Nat → Nat → Prop} {st st' : Store} (hρ : Store.Renamed ρ st st')
include hρ

/-- Values are identical if and only if those that correspond to them are. -/
theorem Store.Renamed.identical_values {v v' w w' : Value} (hv : v.Renamed ρ v')
    (hw : w.Renamed ρ w') : v'.identical w' = v.identical w := by
  cases v with
  | array k =>
    obtain ⟨l, rfl, hkl⟩ := hv
    cases w with
    | array k' =>
      obtain ⟨l', rfl, hkl'⟩ := hw
      -- Arrays are told apart by their keys, and these correspond one to one.
      show (l == l') = (k == k')
      rw [Bool.eq_iff_iff, beq_iff_eq, beq_iff_eq]
      constructor
      · rintro rfl
        exact hρ.injective hkl hkl'
      · rintro rfl
        exact hρ.functional hkl hkl'
    | _ =>
      obtain rfl := hw
      rfl
  | _ =>
    obtain rfl := hv
    cases w with
    | array k' =>
      obtain ⟨l', rfl, -⟩ := hw
      rfl
    | _ =>
      obtain rfl := hw
      rfl

/-- Renamed constants are identical if the constants are. -/
theorem Store.Renamed.identical_eq {a a' b b' : Cell} (ha : a.Renamed ρ a')
    (hb : b.Renamed ρ b') : a'.identical b' = a.identical b := by
  cases a with
  | none =>
    obtain rfl := ha
    cases b with
    | none =>
      obtain rfl := hb
      rfl
    | some w =>
      obtain ⟨w', rfl, -⟩ := hb
      rfl
  | some v =>
    obtain ⟨v', rfl, hv⟩ := ha
    cases b with
    | none =>
      obtain rfl := hb
      rfl
    | some w =>
      obtain ⟨w', rfl, hw⟩ := hb
      exact hρ.identical_values hv hw

/-- A constant and the renamed one are found at the same place. -/
theorem Store.Renamed.findIdx?_eq {cs ds : List Cell} (h : Cell.AllRenamed ρ cs ds) {v v' : Cell}
    (hv : v.Renamed ρ v') :
    ds.findIdx? (fun e => e.identical v') = cs.findIdx? fun e => e.identical v := by
  induction h with
  | nil => rfl
  | cons hc _ ih => rw [List.findIdx?_cons, List.findIdx?_cons, hρ.identical_eq hc hv, ih]

/-- A constant that is added to pools that correspond gets the same index. -/
theorem Store.Renamed.pool_add {p p' : Pool}
    (h : Cell.AllRenamed ρ p.entries.toList p'.entries.toList) {v v' : Cell}
    (hv : v.Renamed ρ v') :
    Cell.AllRenamed ρ (p.add v).1.entries.toList (p'.add v').1.entries.toList ∧
      (p'.add v').2 = (p.add v).2 := by
  have hfind : p'.find? v' = p.find? v := by
    rw [Pool.find?_eq, Pool.find?_eq, hρ.findIdx?_eq h hv]
  cases hold : p.find? v with
  | some i =>
    rw [hold] at hfind
    rw [Pool.add_of_find?_some hold, Pool.add_of_find?_some hfind]
    exact ⟨h, rfl⟩
  | none =>
    rw [hold] at hfind
    refine ⟨?_, ?_⟩
    · rw [Pool.add_entries hold, Pool.add_entries hfind]
      exact List.rel_append h (.cons hv .nil)
    · rw [Pool.add_of_find?_none hold, Pool.add_of_find?_none hfind, ← Array.length_toList,
        ← Array.length_toList]
      exact h.length_eq.symm

end

/-! ## Generating side by side -/

open Generate

/-- The kind of an error: what is wrong, without the position and the name of a variable. -/
def CompileError.kind (e : CompileError) : CompileFault := e.fault.bare

/-- The faults of a sequence are adapted part by part. -/
theorem adaptExcept_bind {ε ε' σ α β : Type} (f : ε → ε') (x : EStateM ε σ α)
    (g : α → EStateM ε σ β) :
    (x >>= g).adaptExcept f = x.adaptExcept f >>= fun a => (g a).adaptExcept f := by
  funext s
  show EStateM.adaptExcept f (EStateM.bind x g) s =
    EStateM.bind (x.adaptExcept f) (fun a => (g a).adaptExcept f) s
  simp only [EStateM.adaptExcept, EStateM.bind]
  cases x s <;> rfl

/-- A position that an error is given does not change its kind. -/
theorem adaptExcept_located (p : Position) (x : Generate α) :
    (located p x).adaptExcept CompileError.kind = x.adaptExcept CompileError.kind := by
  funext c
  simp only [EStateM.adaptExcept, located]
  cases x c with
  | ok a c => rfl
  | error e c =>
    obtain ⟨pos, fault⟩ := e
    cases pos <;> rfl

/-- Computations that lead from compilations that correspond to such compilations, in which other
functions may be open, and give values that are related, or fail with the same kind of error. -/
def Generate.Agree (ρ : Nat → Nat → Prop) (before after : List NameMap) (values : α → β → Prop)
    (x : Generate α) (y : Generate β) : Prop :=
  Relates (Compilation.Renamed ρ before)
    (fun a c b d => values a b ∧ Compilation.Renamed ρ after c d) (fun _ _ => True)
    (x.adaptExcept CompileError.kind) (y.adaptExcept CompileError.kind)

namespace Generate.Agree

variable {α β α' β' : Type} {ρ : Nat → Nat → Prop} {σ : NameMap} {σs σs' σs'' : List NameMap}
  {values : α → β → Prop} {values' : α' → β' → Prop}

/-- Values that agree are given without a change. -/
theorem pure {a : α} {b : β} (h : values a b) :
    Agree ρ σs σs values (Pure.pure a) (Pure.pure b) := fun _ _ hcd => ⟨h, hcd⟩

/-- Faults of one kind agree. -/
theorem throw {e e' : CompileError} (h : e.kind = e'.kind) :
    Agree ρ σs σs' values (MonadExcept.throw e) (MonadExcept.throw e') :=
  fun _ _ _ => ⟨h, trivial⟩

/-- Generators that agree do so one after another. -/
theorem bind {x : Generate α} {y : Generate β} {f : α → Generate α'} {g : β → Generate β'}
    (h : Agree ρ σs σs' values x y)
    (hrest : ∀ a b, values a b → Agree ρ σs' σs'' values' (f a) (g b)) :
    Agree ρ σs σs'' values' (x >>= f) (y >>= g) := by
  unfold Agree
  rw [adaptExcept_bind, adaptExcept_bind]
  refine Relates.bind h fun a b c d hab => ?_
  obtain ⟨hvalues, hcd⟩ := hab
  exact hrest a b hvalues c d hcd

/-- Behind computations that give the same value. -/
theorem andThen {x y : Generate α} {f : α → Generate α'} {g : α → Generate β'}
    (h : Agree ρ σs σs' Eq x y) (hrest : ∀ a, Agree ρ σs' σs'' values' (f a) (g a)) :
    Agree ρ σs σs'' values' (x >>= f) (y >>= g) := by
  refine h.bind fun a b hab => ?_
  subst hab
  exact hrest a

/-- Positions do not matter to agreement. -/
theorem located {x : Generate α} {y : Generate β} (p p' : Position)
    (h : Agree ρ σs σs' values x y) : Agree ρ σs σs' values (located p x) (located p' y) := by
  unfold Agree
  rw [adaptExcept_located, adaptExcept_located]
  exact h

/-- What such computations come to. -/
theorem results {x : Generate α} {y : Generate β} (h : Agree ρ σs σs' values x y)
    {c d : Compilation} (hcd : c.Renamed ρ σs d) :
    (∃ a b c' d', x c = .ok a c' ∧ y d = .ok b d' ∧ values a b ∧ c'.Renamed ρ σs' d') ∨
      ∃ e e' c' d', x c = .error e c' ∧ y d = .error e' d' ∧ e.kind = e'.kind := by
  have hresult := h c d hcd
  simp only [EStateM.adaptExcept] at hresult
  cases hx : x c with
  | ok a c' =>
    cases hy : y d with
    | ok b d' =>
      rw [hx, hy] at hresult
      exact .inl ⟨a, b, c', d', rfl, rfl, hresult⟩
    | error e' d' =>
      rw [hx, hy] at hresult
      exact hresult.elim
  | error e c' =>
    cases hy : y d with
    | ok b d' =>
      rw [hx, hy] at hresult
      exact hresult.elim
    | error e' d' =>
      rw [hx, hy] at hresult
      exact .inr ⟨e, e', c', d', rfl, rfl, hresult.1⟩

/-- Both append one instruction. -/
theorem emit (i : Instruction) : Agree ρ σs σs Eq (emit i) (emit i) := by
  intro c d h
  refine ⟨rfl, { h with code := ?_ }⟩
  show d.code.push i = c.code.push i
  rw [h.code]

/-- Both make one label. -/
theorem newLabel (word : Bytes) : Agree ρ σs σs Eq (newLabel word) (newLabel word) := by
  intro c d h
  have hlabels : d.labels + 1 = c.labels + 1 := by rw [h.labels]
  refine ⟨?_, { h with labels := hlabels }⟩
  show generatedLabel (c.labels + 1) word = generatedLabel (d.labels + 1) word
  rw [hlabels]

/-- A constant gets the same index in both pools. -/
theorem loadConstant {st st' : Store} (hρ : Store.Renamed ρ st st') {v v' : Cell}
    (hv : v.Renamed ρ v') : Agree ρ σs σs Eq (loadConstant v) (loadConstant v') := by
  intro c d h
  obtain ⟨hentries, hindex⟩ := hρ.pool_add h.pool hv
  refine ⟨rfl, { h with pool := hentries, code := ?_ }⟩
  show d.code.push { op := .constant, operand := UInt64.ofNat (d.pool.add v').2 } =
    c.code.push { op := .constant, operand := UInt64.ofNat (c.pool.add v).2 }
  rw [h.code, hindex]

/-- A change of the symbols after which they still correspond. -/
theorem symbols {f g : Symbols → Symbols}
    (h : ∀ s s', s.Renamed σs s' → (f s).Renamed σs' (g s')) :
    Agree ρ σs σs' Eq (modify fun c => { c with symbols := f c.symbols })
      (modify fun c => { c with symbols := g c.symbols }) :=
  fun c d hcd => ⟨rfl, { hcd with symbols := h c.symbols d.symbols hcd.symbols }⟩

/-- Results of operations on the symbols: the same value, or faults of the same kind. -/
theorem lift {r r' : Except CompileFault α}
    (h : (∃ a, r = .ok a ∧ r' = .ok a) ∨ ∃ f f', r = .error f ∧ r' = .error f' ∧ f.bare = f'.bare) :
    Agree ρ σs σs Eq (lift r) (lift r') := by
  rcases h with ⟨a, rfl, rfl⟩ | ⟨f, f', rfl, rfl, hbare⟩
  · exact pure rfl
  · exact throw hbare

/-- Both go on with what they know. -/
theorem get {f : Compilation → Generate α} {g : Compilation → Generate β}
    (h : ∀ c d, Compilation.Renamed ρ σs c d → Agree ρ σs σs' values (f c) (g d)) :
    Agree ρ σs σs' values (MonadState.get >>= f) (MonadState.get >>= g) :=
  fun c d hcd => h c d hcd c d hcd

/-- Both declare paired names in one slot. -/
theorem declareVariable {x x' : Bytes} (hx : σ.Pairs x x') :
    Agree ρ (σ :: σs) (σ :: σs) Eq (declareVariable x) (declareVariable x') := by
  intro c d h
  obtain ⟨slot, t, t', ht, ht', hsymbols⟩ := h.symbols.declare hx
  have hleft : Generate.declareVariable x c = .ok slot { c with symbols := t } := by
    show (Generate.lift (c.symbols.declare x) >>= _ : Generate Nat) c = _
    rw [ht]
    rfl
  have hright : Generate.declareVariable x' d = .ok slot { d with symbols := t' } := by
    show (Generate.lift (d.symbols.declare x') >>= _ : Generate Nat) d = _
    rw [ht']
    rfl
  unfold EStateM.adaptExcept
  rw [hleft, hright]
  exact ⟨rfl, { h with symbols := hsymbols }⟩

/-- A variable is looked up on both sides. -/
theorem resolve {x x' : Bytes} (hx : σ.Pairs x x') {f : Nat → Generate α} {g : Nat → Generate β}
    (h : ∀ slot, Agree ρ (σ :: σs) σs' values (f slot) (g slot)) :
    Agree ρ (σ :: σs) σs' values
      (MonadState.get >>= fun c => Generate.lift (c.symbols.resolve x) >>= f)
      (MonadState.get >>= fun c => Generate.lift (c.symbols.resolve x') >>= g) := by
  refine get fun c d hcd => (lift ?_).andThen h
  rcases hcd.symbols.resolve hx with hfound | ⟨hleft, hright⟩
  · exact .inl hfound
  · exact .inr ⟨_, _, hleft, hright, rfl⟩

/-- Both append an instruction on the slot of paired names. -/
theorem emitSlot (op : Opcode) {x x' : Bytes} (hx : σ.Pairs x x') :
    Agree ρ (σ :: σs) (σ :: σs) Eq (emitSlot op x) (emitSlot op x') :=
  resolve hx fun _ => emit _

/-- A loop is left on both sides, or on neither. -/
theorem loopStop {f : Bytes → Generate α} {g : Bytes → Generate β}
    (h : ∀ stop, Agree ρ σs σs' values (f stop) (g stop)) :
    Agree ρ σs σs' values (MonadState.get >>= fun c => Generate.lift c.symbols.loopStop >>= f)
      (MonadState.get >>= fun c => Generate.lift c.symbols.loopStop >>= g) := by
  refine get fun c d hcd => (lift ?_).andThen h
  have hsame : d.symbols.loopStop = c.symbols.loopStop := by
    unfold Symbols.loopStop
    rw [hcd.symbols.loops]
  rw [hsame]
  cases c.symbols.loopStop with
  | ok stop => exact .inl ⟨stop, rfl, rfl⟩
  | error f => exact .inr ⟨f, f, rfl, rfl, rfl⟩

/-- An index without a name gets the same hidden name on both sides. -/
theorem indexVariable {x x' : Bytes} (hx : x = [] ∧ x' = [] ∨ σ.Renames x x') :
    Agree ρ σs σs σ.Pairs (indexVariable x) (indexVariable x') := by
  by_cases hempty : x = []
  · have hempty' : x' = [] := by
      rcases hx with hx | hx
      · exact hx.2
      · exact (σ.empty hx).mp hempty
    subst hempty hempty'
    exact (newLabel "index").andThen fun _ => pure (.inr ⟨rfl, rfl⟩)
  · have hrenames : σ.Renames x x' := hx.resolve_left fun h => hempty h.1
    have hnamed : x.isEmpty = false := by simpa using hempty
    have hnamed' : x'.isEmpty = false := by
      simpa using fun h => hempty ((σ.empty hrenames).mpr h)
    unfold Generate.indexVariable
    rw [hnamed, hnamed']
    exact pure (.inl hrenames)

/-- A loop is open on both sides. -/
theorem inLoop {x : Generate α} {y : Generate β} (start stop : Bytes)
    (h : Agree ρ σs σs values x y) :
    Agree ρ σs σs values (inLoop start stop x) (inLoop start stop y) := by
  intro c d hcd
  have hopen : Compilation.Renamed ρ σs { c with symbols := c.symbols.enterLoop start stop }
      { d with symbols := d.symbols.enterLoop start stop } :=
    { hcd with symbols := hcd.symbols.enterLoop start stop }
  unfold EStateM.adaptExcept Generate.inLoop
  rcases h.results hopen with ⟨a, b, c', d', hx, hy, hab, hcd'⟩ | ⟨e, e', c', d', hx, hy, hkind⟩
  · rw [hx, hy]
    exact ⟨hab, { hcd' with symbols := hcd'.symbols.exitLoop }⟩
  · rw [hx, hy]
    -- The loops are closed here too, but nothing is asked of compilations that failed.
    exact ⟨hkind, trivial⟩

/-- Both open a function. -/
theorem openFrame (σ : NameMap) (name : Bytes) :
    Agree ρ σs (σ :: σs) Eq (openFrame name) (openFrame name) := by
  refine (symbols fun s s' h => h.enter σ name).andThen fun _ => ?_
  refine get fun c d hcd => (emit _).andThen fun _ => ?_
  exact pure (congrArg Array.size hcd.code.symm)

/-- Closing a function fills in the size of its frame. -/
theorem closeFrame_of_exit {c : Compilation} {scope : Scope} {t : Symbols}
    (h : c.symbols.exit = .ok (scope, t)) (place : Nat) : Generate.closeFrame place c = .ok ()
      { c with
        symbols := t
        code := c.code.modify place fun i =>
          { i with operand := UInt64.ofNat scope.slots.size } } := by
  show (Generate.lift c.symbols.exit >>= _ : Generate Unit) c = _
  rw [h]
  rfl

/-- The size of the frame is the same on both sides. -/
theorem closeFrame (place : Nat) :
    Agree ρ (σ :: σs) σs Eq (closeFrame place) (closeFrame place) := by
  intro c d h
  obtain ⟨scope, scope', t, t', ht, ht', hsize, hsymbols⟩ := h.symbols.exit
  unfold EStateM.adaptExcept
  rw [closeFrame_of_exit ht, closeFrame_of_exit ht']
  refine ⟨rfl, { h with symbols := hsymbols, code := ?_ }⟩
  dsimp only
  rw [h.code, hsize]

/-- Both give back false. -/
theorem giveBackFalse {st st' : Store} (hρ : Store.Renamed ρ st st') :
    Agree ρ σs σs Eq giveBackFalse giveBackFalse :=
  (loadConstant hρ (.scalar (by decide))).andThen fun _ => emit _

/-- Both declare renamed parameters. -/
theorem declareAll {xs xs' : List Bytes} (h : List.Forall₂ σ.Renames xs xs') :
    Agree ρ (σ :: σs) (σ :: σs) Eq (declareAll xs) (declareAll xs') := by
  induction h with
  | nil => exact pure rfl
  | cons hx _ ih => exact (declareVariable (.inl hx)).andThen fun _ => ih

/-- Both store into renamed parameters. -/
theorem storeAll {xs xs' : List Bytes} (h : List.Forall₂ σ.Renames xs xs') :
    Agree ρ (σ :: σs) (σ :: σs) Eq (storeAll xs) (storeAll xs') := by
  induction h with
  | nil => exact pure rfl
  | cons hx _ ih => exact (emitSlot .store (.inl hx)).andThen fun _ => ih

end Generate.Agree

/-! ## Trees side by side -/

/-- An array that is filled with nothing is filled with false on both sides. -/
theorem Cell.Renamed.getD_false {ρ : Nat → Nat → Prop} {fill fill' : Cell}
    (h : fill.Renamed ρ fill') :
    Cell.Renamed ρ (some (fill.getD (.boolean false))) (some (fill'.getD (.boolean false))) := by
  cases fill with
  | none =>
    obtain rfl := h
    exact .scalar (by decide)
  | some v =>
    obtain ⟨w, rfl, hw⟩ := h
    exact ⟨w, rfl, hw⟩

variable {ρ : Nat → Nat → Prop} {st st' : Store} {σ : NameMap}

mutual

/-- The code of renamed expressions agrees. -/
theorem Expr.Renamed.generate {e e' : Expr Cell} (h : e.Renamed ρ σ e')
    (hρ : Store.Renamed ρ st st') (σs : List NameMap) :
    Generate.Agree ρ (σ :: σs) (σ :: σs) Eq e.generate e'.generate := by
  match e, h with
  | .absent, .absent => exact .throw rfl
  | .literal _ _, .literal hv => exact .loadConstant hρ hv
  | .load _ _, .load hx => exact .located _ _ (.emitSlot .load (.inl hx))
  | .element _ _ _ _, .element hx hrow hcol =>
    refine .located _ _ (.andThen (hrow.generate hρ σs) fun _ => ?_)
    exact .andThen (hcol.generate hρ σs) fun _ => .emitSlot .readArray (.inl hx)
  | .newArray _ _ _ _, .newArray hrows hcols hfill =>
    refine .located _ _ (.andThen (hrows.generate hρ σs) fun _ => ?_)
    refine .andThen (hcols.generate hρ σs) fun _ => ?_
    exact .andThen (.loadConstant hρ hfill.getD_false) fun _ => .emit _
  | .call _ _ _, .call hargs =>
    refine .located _ _ (.andThen (hargs.generate hρ σs) fun _ => ?_)
    rw [hargs.length_eq]
    exact .emit _
  | .binary _ op _ _, .binary hleft hright =>
    refine .located _ _ ?_
    cases op.opcode? with
    | none => exact .throw rfl
    | some code =>
      refine .andThen (hleft.generate hρ σs) fun _ => ?_
      exact .andThen (hright.generate hρ σs) fun _ => .emit _
  | .negation _ _, .negation hoperand =>
    exact .located _ _ (.andThen (hoperand.generate hρ σs) fun _ => .emit _)

/-- The code of renamed arguments agrees. -/
theorem Expr.AllRenamed.generate {es es' : List (Expr Cell)} (h : Expr.AllRenamed ρ σ es es')
    (hρ : Store.Renamed ρ st st') (σs : List NameMap) :
    Generate.Agree ρ (σ :: σs) (σ :: σs) Eq (Expr.generateArguments es)
      (Expr.generateArguments es') := by
  match es, h with
  | [], .nil => exact .pure rfl
  | _ :: _, .cons he hes => exact .andThen (hes.generate hρ σs) fun _ => he.generate hρ σs

end

mutual

/-- The code of renamed statements agrees. -/
theorem Stmt.Renamed.generate {σ : NameMap} {s s' : Stmt Cell} (h : s.Renamed ρ σ s')
    (hρ : Store.Renamed ρ st st') (σs : List NameMap) :
    Generate.Agree ρ (σ :: σs) (σ :: σs) Eq s.generate s'.generate := by
  match s, h with
  | .absent, .absent => exact .pure rfl
  | .block _ _, .block hbody => exact hbody.generate hρ σs
  | .declare _ _ _, .declare hx hvalue =>
    refine .located _ _ (.andThen (.declareVariable (.inl hx)) fun _ => ?_)
    exact .andThen (hvalue.generate hρ σs) fun _ => .emit _
  | .assign _ _ _, .assign hx hvalue =>
    exact .located _ _ (.andThen (hvalue.generate hρ σs) fun _ => .emitSlot .store (.inl hx))
  | .assignElement _ _ _ _ _, .assignElement hx hrow hcol hvalue =>
    refine .located _ _ (.andThen (hrow.generate hρ σs) fun _ => ?_)
    refine .andThen (hcol.generate hρ σs) fun _ => .andThen (hvalue.generate hρ σs) fun _ => ?_
    exact .emitSlot .writeArray (.inl hx)
  | .branch _ _ _ no, .branch hcond hyes hno =>
    refine .located _ _ (.andThen (.newLabel _) fun stop => ?_)
    rw [hno.isAbsent_eq]
    cases no.isAbsent with
    | true =>
      refine .andThen (hcond.generate hρ σs) fun _ => .andThen (.emit _) fun _ => ?_
      exact .andThen (hyes.generate hρ σs) fun _ => .andThen (.emit _) fun _ => .emit _
    | false =>
      refine .andThen (.newLabel _) fun _ => .andThen (hcond.generate hρ σs) fun _ => ?_
      refine .andThen (.emit _) fun _ => .andThen (hyes.generate hρ σs) fun _ => ?_
      refine .andThen (.emit _) fun _ => .andThen (.emit _) fun _ => ?_
      exact .andThen (hno.generate hρ σs) fun _ => .emit _
  | .whileLoop _ _ _, .whileLoop hcond hbody =>
    refine .located _ _ (.andThen (.newLabel _) fun start => .andThen (.newLabel _) fun stop => ?_)
    refine .inLoop start stop (.andThen (.emit _) fun _ => ?_)
    refine .andThen (hcond.generate hρ σs) fun _ => .andThen (.emit _) fun _ => ?_
    exact .andThen (hbody.generate hρ σs) fun _ => .andThen (.emit _) fun _ => .emit _
  | .countLoop _ _ _ _, .countLoop hindex hcount hbody =>
    refine .located _ _ (.andThen (.newLabel _) fun start => .andThen (.newLabel _) fun stop => ?_)
    refine .inLoop start stop (.bind (.indexVariable hindex) fun x x' hx => ?_)
    refine .andThen (.declareVariable hx) fun _ => .resolve hx fun slot => ?_
    -- The index is set to zero and compared with the count,
    refine .andThen (.loadConstant hρ (.scalar (by decide))) fun _ => .andThen (.emit _) fun _ => ?_
    refine .andThen (.emit _) fun _ => .andThen (.emit _) fun _ => ?_
    refine .andThen (hcount.generate hρ σs) fun _ => .andThen (.emit _) fun _ => ?_
    refine .andThen (.emit _) fun _ => .andThen (hbody.generate hρ σs) fun _ => ?_
    -- and one is added to it behind the body.
    refine .andThen (.emit _) fun _ => ?_
    refine .andThen (.loadConstant hρ (.scalar (by decide))) fun _ => .andThen (.emit _) fun _ => ?_
    exact .andThen (.emit _) fun _ => .andThen (.emit _) fun _ => .emit _
  | .leave _, .leave => exact .located _ _ (.loopStop fun _ => .emit _)
  | .giveBack _ value, .giveBack hvalue =>
    unfold Stmt.generate
    rw [hvalue.isAbsent_eq]
    cases value.isAbsent with
    | true => exact .giveBackFalse hρ
    | false => exact .located _ _ (.andThen (hvalue.generate hρ σs) fun _ => .emit _)
  | .define _ _ _ _, .define hparams hbody =>
    refine .located _ _ (.andThen (.newLabel _) fun stop => .andThen (.emit _) fun _ => ?_)
    rw [← hparams.length_eq]
    refine .andThen (.symbols fun _ _ h => h.define _ _ _) fun _ => .andThen (.emit _) fun _ => ?_
    -- The function renames its variables in its own way.
    refine .andThen (.openFrame _ _) fun place => .andThen (.declareAll hparams) fun _ => ?_
    refine .andThen (.storeAll hparams) fun _ => .andThen (hbody.generate hρ (σ :: σs)) fun _ => ?_
    exact .andThen (.giveBackFalse hρ) fun _ => .andThen (.closeFrame place) fun _ => .emit _
  | .perform _ _ _, .perform hargs =>
    refine .located _ _ (.andThen (hargs.generate hρ σs) fun _ => ?_)
    rw [hargs.length_eq]
    exact .andThen (.emit _) fun _ => .emit _

/-- The code of renamed statements in sequence agrees. -/
theorem Stmt.AllRenamed.generate {σ : NameMap} {ss ss' : List (Stmt Cell)}
    (h : Stmt.AllRenamed ρ σ ss ss') (hρ : Store.Renamed ρ st st') (σs : List NameMap) :
    Generate.Agree ρ (σ :: σs) (σ :: σs) Eq (Stmt.generateAll ss) (Stmt.generateAll ss') := by
  match ss, h with
  | [], .nil => exact .pure rfl
  | _ :: _, .cons hs hss => exact .andThen (hs.generate hρ σs) fun _ => hss.generate hρ σs

end

/-- Trees that correspond, from compilations without open functions. -/
theorem Tree.Renamed.generate {t t' : Tree Cell} (h : t.Renamed ρ t')
    (hρ : Store.Renamed ρ st st') :
    Generate.Agree ρ [] [] Eq t.generate t'.generate := by
  obtain ⟨σ, hbody⟩ := h
  refine .andThen (.openFrame σ _) fun place => .andThen (hbody.generate hρ []) fun _ => ?_
  exact .andThen (.giveBackFalse hρ) fun _ => .closeFrame place

end StackScript
