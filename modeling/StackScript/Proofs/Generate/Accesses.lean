import StackScript.Proofs.Tree.Accesses

/-!
# The instructions on slots

The instructions on slots that generation appends for a piece of a tree are those for its accesses
to variables, in order, and each has the slot of its access (`Fits`). The induction goes along with
a cursor, which tells as much of the tree as is needed to number functions and name hidden indices;
`Cursor.At` says that it is as far as the progress of generation.
-/

namespace StackScript

open Instruction

variable {a : Access} {all as : List Access}

/-- Whether an operation is on a slot. -/
def Opcode.usesSlot : Opcode → Bool
  | load | store | readArray | writeArray => true
  | _ => false

/-- The instructions on slots of a stream, each with its operand. -/
def slotCode (code : List Instruction) : List (Opcode × UInt64) :=
  (code.filter fun i => i.op.usesSlot).map fun i => (i.op, i.operand)

/-- Instructions on slots are those for accesses, each with the slot that its access has among all
accesses, of which those in front are given. -/
def Fits (all : List Access) : List Access → List Access → List (Opcode × UInt64) → Prop
  | _, [], code => code = []
  | before, a :: as, code =>
    ∃ k rest, a.slot? all before = some k ∧ code = (a.op, UInt64.ofNat k) :: rest ∧
      Fits all (before ++ [a]) as rest

/-- No code uses no slots. -/
theorem slotCode_nil : slotCode [] = [] := rfl

/-- The slots used by an instruction and those after it. -/
theorem slotCode_cons (i : Instruction) (code : List Instruction) :
    slotCode (i :: code) =
      (if i.op.usesSlot then [(i.op, i.operand)] else []) ++ slotCode code := by
  unfold slotCode
  by_cases h : i.op.usesSlot <;> simp [h]

/-- The slots used by two pieces of code. -/
theorem slotCode_append (a b : List Instruction) :
    slotCode (a ++ b) = slotCode a ++ slotCode b := by
  unfold slotCode
  rw [List.filter_append, List.map_append]

/-- An instruction that is not on a slot. -/
theorem slotCode_other {i : Instruction} (h : i.op.usesSlot = false) (code : List Instruction) :
    slotCode (i :: code) = slotCode code := by
  simp [slotCode, h]

namespace Fits

variable {all before as bs : List Access} {code code' : List (Opcode × UInt64)}

/-- No code fits no accesses. -/
theorem nil : Fits all before [] [] := rfl

/-- Code fits accesses piece by piece. -/
theorem append (h : Fits all before as code) (h' : Fits all (before ++ as) bs code') :
    Fits all before (as ++ bs) (code ++ code') := by
  induction as generalizing before code with
  | nil =>
    obtain rfl := h
    rwa [List.append_nil] at h'
  | cons a as ih =>
    obtain ⟨k, rest, hk, rfl, hrest⟩ := h
    refine ⟨k, rest ++ code', hk, rfl, ih hrest ?_⟩
    rwa [List.append_assoc, List.singleton_append]

/-- An instruction on the slot of a name fits an access to it. -/
theorem single {slots : List Bytes} {k : Nat} (hrole : a.role ≠ .initial)
    (hslots : slots <+: declaredBy a.owner all) (hk : slotOf slots a.name = some k) :
    Fits all before [a] [(a.op, UInt64.ofNat k)] := by
  refine ⟨k, [], ?_, rfl, rfl⟩
  rw [Access.slot?, if_neg hrole]
  exact slotOf_of_initial hslots hk

/-- There is one instruction for each access, with its operation. -/
theorem ops (h : Fits all before as code) : code.map Prod.fst = as.map Access.op := by
  induction as generalizing before code with
  | nil =>
    obtain rfl := h
    rfl
  | cons a as ih =>
    obtain ⟨k, rest, -, rfl, hrest⟩ := h
    exact congrArg (a.op :: ·) (ih hrest)

/-- The instruction for an access. -/
theorem get (h : Fits all before as code) {i : Nat} (ha : as[i]? = some a) :
    ∃ k, a.slot? all (before ++ as.take i) = some k ∧ code[i]? = some (a.op, UInt64.ofNat k) := by
  induction as generalizing before code i with
  | nil => cases ha
  | cons b as ih =>
    obtain ⟨k, rest, hk, rfl, hrest⟩ := h
    cases i with
    | zero =>
      cases ha
      rw [List.take_zero, List.append_nil]
      exact ⟨k, hk, rfl⟩
    | succ i =>
      obtain ⟨m, hm, hget⟩ := ih hrest ha
      rw [List.append_assoc, List.singleton_append, ← List.take_succ_cons] at hm
      exact ⟨m, hm, hget⟩

end Fits

/-! ## Expressions -/

mutual

/-- The accesses of an expression belong to its function and declare nothing. -/
theorem Expr.accesses_use (owner : Nat) (e : Expr Cell) :
    ∀ a ∈ e.accesses owner, a.owner = owner ∧ a.declares = false := by
  match e with
  | .absent => exact List.forall_mem_nil _
  | .literal _ _ => exact List.forall_mem_nil _
  | .load _ x => exact List.forall_mem_singleton.mpr ⟨rfl, rfl⟩
  | .element _ x row col =>
    rw [Expr.accesses, List.forall_mem_append, List.forall_mem_append]
    exact ⟨⟨row.accesses_use owner, col.accesses_use owner⟩,
      List.forall_mem_singleton.mpr ⟨rfl, rfl⟩⟩
  | .newArray _ rows cols _ =>
    rw [Expr.accesses, List.forall_mem_append]
    exact ⟨rows.accesses_use owner, cols.accesses_use owner⟩
  | .call _ _ args => exact Expr.argumentAccesses_use owner args
  | .binary _ _ left right =>
    rw [Expr.accesses, List.forall_mem_append]
    exact ⟨left.accesses_use owner, right.accesses_use owner⟩
  | .negation _ operand => exact operand.accesses_use owner

/-- Arguments declare nothing. -/
theorem Expr.argumentAccesses_use (owner : Nat) (es : List (Expr Cell)) :
    ∀ a ∈ Expr.argumentAccesses owner es, a.owner = owner ∧ a.declares = false := by
  match es with
  | [] => exact List.forall_mem_nil _
  | e :: es =>
    rw [Expr.argumentAccesses, List.forall_mem_append]
    exact ⟨Expr.argumentAccesses_use owner es, e.accesses_use owner⟩

end

section

variable {K : List Cell} {slots : List Bytes} {all : List Access} {owner : Nat}

mutual

/-- The code of an expression has the slots of its accesses. -/
theorem Expr.Emits.fits {e : Expr Cell} {code : List Instruction} (h : e.Emits K slots code)
    (hslots : slots <+: declaredBy owner all) (before : List Access) :
    Fits all before (e.accesses owner) (slotCode code) := by
  match e with
  | .absent => exact h.elim
  | .literal _ v =>
    obtain ⟨k, -, rfl⟩ := h
    exact .nil
  | .load _ x =>
    obtain ⟨k, hk, rfl⟩ := h
    exact .single (a := ⟨owner, x, .use .load⟩) (by simp) hslots hk
  | .element _ x row col =>
    obtain ⟨r, c, k, hr, hc, hk, rfl⟩ := h
    rw [slotCode_append, slotCode_append]
    exact ((hr.fits hslots _).append (hc.fits hslots _)).append
      (.single (a := ⟨owner, x, .use .readArray⟩) (by simp) hslots hk)
  | .newArray _ rows cols fill =>
    obtain ⟨r, c, k, hr, hc, -, rfl⟩ := h
    rw [slotCode_append, slotCode_append,
      show slotCode [on .constant k, on .makeArray 0] = [] from rfl, List.append_nil]
    exact (hr.fits hslots _).append (hc.fits hslots _)
  | .call _ name args =>
    obtain ⟨c, hc, rfl⟩ := h
    rw [slotCode_append, show slotCode [callOf name args.length] = [] from rfl, List.append_nil]
    exact Expr.EmitsArguments.fits hc hslots before
  | .binary _ op left right =>
    obtain ⟨l, r, o, ho, hl, hr, rfl⟩ := h
    have hop : (on o 0).op.usesSlot = false := by cases op <;> cases ho <;> rfl
    rw [slotCode_append, slotCode_append, slotCode_other hop, show slotCode [] = [] from rfl,
      List.append_nil]
    exact (hl.fits hslots _).append (hr.fits hslots _)
  | .negation _ operand =>
    obtain ⟨c, hc, rfl⟩ := h
    rw [slotCode_append, show slotCode [on .not 0] = [] from rfl, List.append_nil]
    exact hc.fits hslots before

/-- The code of arguments fits their accesses. -/
theorem Expr.EmitsArguments.fits {es : List (Expr Cell)} {code : List Instruction}
    (h : Expr.EmitsArguments K slots es code) (hslots : slots <+: declaredBy owner all)
    (before : List Access) :
    Fits all before (Expr.argumentAccesses owner es) (slotCode code) := by
  match es with
  | [] =>
    obtain rfl := h
    exact .nil
  | e :: es =>
    obtain ⟨rest, c, hrest, hc, rfl⟩ := h
    rw [slotCode_append]
    exact (Expr.EmitsArguments.fits hrest hslots before).append (hc.fits hslots _)

end

end

/-! ## Statements -/

/-- A function is the one that a cursor is in, or one of the next `n`. -/
def Cursor.Owns (c : Cursor) (n o : Nat) : Prop :=
  o = c.owner ∨ c.functions < o ∧ o ≤ c.functions + n

/-- What an expression uses is its owner's. -/
theorem Expr.accesses_owned (e : Expr Cell) (c : Cursor) (n : Nat) :
    ∀ a ∈ e.accesses c.owner, c.Owns n a.owner := fun a ha => .inl (e.accesses_use c.owner a ha).1

mutual

/-- The accesses of a statement are those of its function and of functions declared in it. -/
theorem Stmt.accesses_owned (s : Stmt Cell) (c : Cursor) :
    ∀ a ∈ s.accesses c, c.Owns s.functions.length a.owner := by
  match s with
  | .absent => exact List.forall_mem_nil _
  | .block _ body => exact Stmt.allAccesses_owned body c
  | .declare _ x value =>
    exact List.forall_mem_append.mpr
      ⟨value.accesses_owned c _, List.forall_mem_singleton.mpr (.inl rfl)⟩
  | .assign _ x value =>
    exact List.forall_mem_append.mpr
      ⟨value.accesses_owned c _, List.forall_mem_singleton.mpr (.inl rfl)⟩
  | .assignElement _ x row col value =>
    simp only [Stmt.accesses, List.forall_mem_append]
    exact ⟨⟨⟨row.accesses_owned c _, col.accesses_owned c _⟩, value.accesses_owned c _⟩,
      List.forall_mem_singleton.mpr (.inl rfl)⟩
  | .branch _ cond yes no =>
    have hyes := yes.accesses_owned (c.label (if no.isAbsent then 1 else 2))
    have hno := no.accesses_owned ((c.label (if no.isAbsent then 1 else 2)).past yes)
    simp only [Stmt.accesses, List.forall_mem_append, Stmt.functions, List.length_append]
    refine ⟨⟨cond.accesses_owned c _, fun a ha => ?_⟩, fun a ha => ?_⟩
    · have howned := hyes a ha
      simp only [Cursor.Owns, Cursor.label] at howned ⊢
      omega
    · have howned := hno a ha
      simp only [Cursor.Owns, Cursor.past, Cursor.label] at howned ⊢
      omega
  | .whileLoop _ cond body =>
    exact List.forall_mem_append.mpr ⟨cond.accesses_owned c _, body.accesses_owned (c.label 2)⟩
  | .countLoop _ index count body =>
    have hbody := body.accesses_owned (c.label (if index.isEmpty then 3 else 2))
    simp only [Stmt.accesses, List.forall_mem_append, List.forall_mem_cons]
    exact ⟨⟨⟨⟨.inl rfl, .inl rfl, List.forall_mem_nil _⟩, count.accesses_owned c _⟩, hbody⟩,
      .inl rfl, .inl rfl, List.forall_mem_nil _⟩
  | .leave _ => exact List.forall_mem_nil _
  | .giveBack _ value => exact value.accesses_owned c _
  | .define _ name params body =>
    have hbody := body.accesses_owned c.enter
    rw [Stmt.accesses, List.forall_mem_append, List.forall_mem_map]
    refine ⟨fun x _ => .inr ?_, fun a ha => .inr ?_⟩
    · simp only [Cursor.enter, Stmt.functions, List.length_cons]
      omega
    · have howned := hbody a ha
      simp only [Cursor.Owns, Cursor.enter] at howned
      simp only [Stmt.functions, List.length_cons]
      omega
  | .perform _ name args => exact fun a ha => .inl (Expr.argumentAccesses_use c.owner args a ha).1

/-- What statements use is their owner's or a function's in them. -/
theorem Stmt.allAccesses_owned (ss : List (Stmt Cell)) (c : Cursor) :
    ∀ a ∈ Stmt.allAccesses ss c, c.Owns (Stmt.allFunctions ss).length a.owner := by
  match ss with
  | [] => exact List.forall_mem_nil _
  | s :: ss =>
    have hfirst := s.accesses_owned c
    have hrest := Stmt.allAccesses_owned ss (c.past s)
    rw [Stmt.allAccesses, List.forall_mem_append, Stmt.allFunctions, List.length_append]
    refine ⟨fun a ha => ?_, fun a ha => ?_⟩
    · have howned := hfirst a ha
      simp only [Cursor.Owns] at howned ⊢
      omega
    · have howned := hrest a ha
      simp only [Cursor.Owns, Cursor.past] at howned ⊢
      omega

end

/-- A cursor is as far as the progress of generation: it has come past the accesses `before`, which
declare the variables so far, and nothing was declared in functions to come. -/
structure Cursor.At (c : Cursor) (σ : Progress) (before : List Access) : Prop where
  labels : c.labels = σ.labels
  slots : declaredBy c.owner before = σ.slots
  owner_le : c.owner ≤ c.functions
  fresh : ∀ o, c.functions < o → declaredBy o before = []

namespace Cursor.At

variable {c c' : Cursor} {σ τ : Progress} {before : List Access}

/-- A cursor may be given by its parts. -/
theorem of_eq (h : c.At σ before) (howner : c'.owner = c.owner)
    (hfunctions : c'.functions = c.functions) (hlabels : c'.labels = c.labels) :
    c'.At σ before := by
  cases c
  cases c'
  subst howner hfunctions hlabels
  exact h

/-- Labels are made alike. -/
theorem label (h : c.At σ before) (n : Nat) : (c.label n).At (σ.label n) before :=
  { h with labels := congrArg (· + n) h.labels }

/-- One comes past accesses of the same function. -/
theorem append (h : c.At σ before) (howner : ∀ a ∈ as, a.owner = c.owner) {new : List Bytes}
    (hnew : declaredBy c.owner as = new) :
    c.At { σ with slots := σ.slots ++ new } (before ++ as) where
  labels := h.labels
  slots := by rw [declaredBy_append, h.slots, hnew]
  owner_le := h.owner_le
  fresh o ho := by
    have hle := h.owner_le
    rw [declaredBy_append, h.fresh o ho, declaredBy_other _ fun a ha => .inl ?_]
    · rfl
    · rw [howner a ha]
      omega

/-- One comes past accesses that declare nothing. -/
theorem use (h : c.At σ before) (has : ∀ a ∈ as, a.owner = c.owner ∧ a.declares = false) :
    c.At σ (before ++ as) := by
  have happend := h.append (fun a ha => (has a ha).1)
    (declaredBy_other c.owner fun a ha => .inr (has a ha).2)
  rwa [List.append_nil] at happend

/-- The variables so far are the first ones. -/
theorem slots_initial (h : c.At σ before) (hall : before ++ as <+: all) :
    σ.slots <+: declaredBy c.owner all := by
  rw [← h.slots]
  exact declaredBy_initial c.owner ((List.prefix_append _ _).trans hall)

/-- An expression declares nothing. -/
theorem expr (h : c.At σ before) (e : Expr Cell) : c.At σ (before ++ e.accesses c.owner) :=
  h.use (e.accesses_use c.owner)

/-- The hidden indices have the same names. -/
theorem indexName_eq (h : c.At σ before) (index : Bytes) :
    c.indexName index = σ.indexName index := by
  rw [Cursor.indexName, Progress.indexName, h.labels]

/-- One comes to the test of a counting loop. -/
theorem enterCount (h : c.At σ before) (index : Bytes) :
    (c.label (if index.isEmpty then 3 else 2)).At (σ.enterCount index)
      (before ++ [⟨c.owner, c.indexName index, .bind⟩,
        ⟨c.owner, c.indexName index, .use .load⟩]) := by
  rw [Progress.enterCount, ← h.indexName_eq]
  refine (h.label _).append (List.forall_mem_cons.mpr ⟨rfl, List.forall_mem_singleton.mpr rfl⟩) ?_
  simp [declaredBy, Access.declares, Cursor.label]

/-- One comes into a function. -/
theorem enter (h : c.At σ before) (params : List Bytes) :
    c.enter.At ⟨σ.labels + 1, params⟩
      (before ++ params.map fun x => ⟨c.enter.owner, x, .bind⟩) where
  labels := congrArg (· + 1) h.labels
  slots := by
    have hfresh : declaredBy c.enter.owner before = [] := h.fresh _ (Nat.lt_succ_self _)
    rw [declaredBy_append, hfresh]
    simp [declaredBy, Access.declares, List.filter_map, Function.comp_def]
  owner_le := Nat.le_refl _
  fresh o ho := by
    have hfresh := h.fresh o (Nat.lt_of_succ_lt ho)
    rw [declaredBy_append, hfresh, declaredBy_other _ fun a ha => .inl ?_]
    · rfl
    · obtain ⟨x, -, rfl⟩ := List.mem_map.mp ha
      exact Nat.ne_of_lt ho

end Cursor.At

/-- One comes out of the functions of which the accesses are. -/
theorem Cursor.At.leave {c : Cursor} {σ : Progress} {before : List Access} (h : c.At σ before)
    {n l m : Nat} (howned : ∀ a ∈ as, c.functions < a.owner ∧ a.owner ≤ c.functions + n)
    (hlabels : c.labels + l = m) :
    Cursor.At { c with functions := c.functions + n, labels := c.labels + l }
      { σ with labels := m } (before ++ as) := by
  have hle := h.owner_le
  -- Functions that are open or to come have none of the accesses.
  have hnone (o : Nat) (ho : o ≤ c.functions ∨ c.functions + n < o) : declaredBy o as = [] := by
    refine declaredBy_other _ fun a ha => .inl ?_
    have := howned a ha
    omega
  refine ⟨hlabels, ?_, Nat.le_trans hle (Nat.le_add_right _ _), fun o ho => ?_⟩
  · change declaredBy c.owner (before ++ as) = σ.slots
    rw [declaredBy_append, h.slots, hnone _ (.inl hle), List.append_nil]
  · change c.functions + n < o at ho
    rw [declaredBy_append, h.fresh o (by omega), hnone o (.inr ho)]
    rfl

/-- The parameters are stored into their slots. -/
theorem storesOf_fits {params : List Bytes} {owner : Nat} (h : params <+: declaredBy owner all)
    (before : List Access) :
    Fits all before (params.map fun x => ⟨owner, x, .bind⟩) (slotCode (storesOf params)) := by
  have hsub (xs : List Bytes) (hxs : xs ⊆ params) (before : List Access) :
      Fits all before (xs.map fun x => ⟨owner, x, .bind⟩)
        (slotCode (xs.map fun x => on .store ((slotOf params x).getD 0))) := by
    induction xs generalizing before with
    | nil => exact .nil
    | cons x xs ih =>
      obtain ⟨k, hk⟩ : ∃ k, slotOf params x = some k := by
        rw [← Option.isSome_iff_exists]
        simpa [slotOf, List.findIdx?_isSome] using hxs List.mem_cons_self
      have hfirst : Fits all before [⟨owner, x, .bind⟩] [(.store, UInt64.ofNat k)] :=
        .single (by simp) h hk
      rw [List.map_cons, List.map_cons, hk]
      exact hfirst.append (ih (List.subset_of_cons_subset hxs) _)
  exact hsub params (List.Subset.refl _) before

section

attribute [local simp] slotCode_nil slotCode_cons slotCode_append Opcode.usesSlot on marker jumpTo

/-- The code of a statement has the slots of its accesses. -/
def Stmt.EmitsFitting (all : List Access) (s : Stmt Cell) : Prop :=
  ∀ {K stop σ τ code} {c : Cursor} {before}, s.Emits K stop σ code τ → c.At σ before →
    before ++ s.accesses c <+: all →
    Fits all before (s.accesses c) (slotCode code) ∧ (c.past s).At τ (before ++ s.accesses c)

/-- The name is declared before the value is evaluated, although the store comes last. -/
theorem declare_fits (pos : Position) (x : Bytes) (value : Expr Cell) :
    (Stmt.declare pos x value).EmitsFitting all := by
  rintro K stop σ τ code c before ⟨v, hv, rfl, rfl⟩ hc hall
  rw [Stmt.accesses, ← List.append_assoc] at hall ⊢
  have hdeclared := (hc.expr value).append (List.forall_mem_singleton.mpr rfl)
    (declaredBy_self (a := ⟨c.owner, x, .initial⟩) rfl)
  have hslots : (σ.declare x).slots <+: declaredBy c.owner all := by
    have hinitial := declaredBy_initial c.owner hall
    rwa [hdeclared.slots] at hinitial
  refine ⟨?_, hdeclared⟩
  rw [slotCode_append]
  refine (hv.fits hslots before).append ⟨_, [], rfl, ?_, rfl⟩
  rw [(hc.expr value).slots]
  rfl

/-- The code of a branch fits if that of its parts does. -/
theorem branch_fits {yes no : Stmt Cell} (pos : Position) (cond : Expr Cell)
    (hyes : yes.EmitsFitting all) (hno : no.EmitsFitting all) :
    (Stmt.branch pos cond yes no).EmitsFitting all := by
  intro K stop σ τ code c before h hc hall
  have hslots := hc.slots_initial hall
  rw [Stmt.accesses, ← List.append_assoc, ← List.append_assoc] at hall ⊢
  have hyesall := (List.prefix_append _ _).trans hall
  rw [Stmt.Emits] at h
  split at h
  · rename_i habsent
    obtain ⟨d, y, hd, hy, rfl⟩ := h
    obtain rfl := Stmt.eq_absent habsent
    obtain ⟨hyes, hpast⟩ := hyes hy ((hc.label 1).expr cond) hyesall
    have hcode := (hd.fits hslots before).append hyes
    rw [Stmt.accesses, List.append_nil, List.append_nil]
    refine ⟨by simpa [Stmt.isAbsent] using hcode, hpast.of_eq rfl ?_ ?_⟩
    · simp [Cursor.past, Cursor.label, Stmt.functions]
    · simp [Cursor.past, Cursor.label, Stmt.labelCount, Stmt.isAbsent, Nat.add_assoc]
  · rename_i hpresent
    obtain ⟨d, y, n, ρ, hd, hy, hn, rfl⟩ := h
    rw [if_neg hpresent] at hall hyesall ⊢
    obtain ⟨hyes, hmiddle⟩ := hyes hy ((hc.label 2).expr cond) hyesall
    obtain ⟨hno, hpast⟩ := hno hn hmiddle hall
    rw [List.append_assoc] at hno
    have hcode := ((hd.fits hslots before).append hyes).append hno
    refine ⟨by simpa using hcode, hpast.of_eq rfl ?_ ?_⟩
    · simp [Cursor.past, Cursor.label, Stmt.functions, Nat.add_assoc]
    · simp [Cursor.past, Cursor.label, Stmt.labelCount, hpresent, Nat.add_assoc]

/-- The code of a counting loop fits if that of its body does. -/
theorem countLoop_fits {body : Stmt Cell} (pos : Position) (index : Bytes) (count : Expr Cell)
    (hbody : body.EmitsFitting all) : (Stmt.countLoop pos index count body).EmitsFitting all := by
  rintro K stop σ τ code c before ⟨d, b, k, k0, k1, hk, -, hd, hb, -, rfl⟩ hc hall
  rw [← hc.indexName_eq] at hk
  have hstart := hc.enterCount index
  simp only [Stmt.accesses, ← List.append_assoc] at hall ⊢
  have hbodyall := (List.prefix_append _ _).trans hall
  have hslots := hstart.slots_initial ((List.prefix_append _ _).trans hbodyall)
  -- The slot of the index is accessed in front of the body and behind it, each time by name.
  have haccess (role : Access.Role) (hrole : role ≠ .initial) (before : List Access) :
      Fits all before [⟨c.owner, c.indexName index, role⟩]
        [(Access.op ⟨c.owner, c.indexName index, role⟩, UInt64.ofNat k)] :=
    .single (a := ⟨c.owner, c.indexName index, role⟩) hrole hslots hk
  have hfirst := (haccess .bind (by simp) before).append (haccess (.use .load) (by simp) _)
  have hlast (before : List Access) :=
    (haccess (.use .load) (by simp) before).append (haccess (.use .store) (by simp) _)
  obtain ⟨hbody, hpast⟩ := hbody hb (hstart.expr count) hbodyall
  rw [List.append_assoc] at hbody
  have hcode := ((hfirst.append (hd.fits hslots _)).append hbody).append (hlast _)
  refine ⟨by simpa [Cursor.label, Access.op] using hcode, ?_⟩
  have huses : ∀ a ∈ [(⟨c.owner, c.indexName index, .use .load⟩ : Access),
      ⟨c.owner, c.indexName index, .use .store⟩], a.owner = c.owner ∧ a.declares = false := by
    simp [Access.declares]
  exact (hpast.use huses).of_eq rfl rfl (Nat.add_assoc ..).symm

/-- The code of a function fits if that of its body does. -/
theorem define_fits {body : Stmt Cell} (pos : Position) (name : Bytes) (params : List Bytes)
    (hbody : body.EmitsFitting all) : (Stmt.define pos name params body).EmitsFitting all := by
  rintro K stop σ τ code c before ⟨b, r, ρ, hb, ⟨k, -, rfl⟩, rfl, rfl⟩ hc hall
  rw [Stmt.accesses, ← List.append_assoc] at hall
  obtain ⟨hbody, hpast⟩ := hbody hb (hc.enter params) hall
  have hparams : params <+: declaredBy c.enter.owner all := (hc.enter params).slots_initial hall
  have hcode := (storesOf_fits hparams before).append hbody
  refine ⟨by simpa [Stmt.accesses] using hcode, hc.leave ?_ ?_⟩
  · rw [Stmt.accesses, List.forall_mem_append, List.forall_mem_map]
    refine ⟨fun x _ => ?_, fun a ha => ?_⟩
    · simp only [Cursor.enter, Stmt.functions, List.length_cons]
      omega
    · have howned := body.accesses_owned c.enter a ha
      simp only [Cursor.Owns, Cursor.enter] at howned
      simp only [Stmt.functions, List.length_cons]
      omega
  · rw [← hpast.labels]
    exact (Nat.add_assoc ..).symm

mutual

/-- The code of every statement has the slots of its accesses. -/
theorem Stmt.emitsFitting (s : Stmt Cell) : s.EmitsFitting all := by
  intro K stop σ τ code c before h hc hall
  match s with
  | .absent =>
    obtain ⟨rfl, rfl⟩ := h
    rw [Stmt.accesses, List.append_nil]
    exact ⟨.nil, hc⟩
  | .block _ body => exact Stmt.EmitsAll.fits h hc hall
  | .declare pos x value => exact declare_fits pos x value h hc hall
  | .assign _ x value =>
    obtain ⟨v, k, hv, hk, rfl, rfl⟩ := h
    have hslots := hc.slots_initial hall
    rw [Stmt.accesses, slotCode_append, ← List.append_assoc]
    have hstore : Fits all (before ++ value.accesses c.owner) [⟨c.owner, x, .use .store⟩]
        [(.store, UInt64.ofNat k)] := .single (by simp) hslots hk
    exact ⟨(hv.fits hslots before).append hstore,
      (hc.expr value).use (List.forall_mem_singleton.mpr ⟨rfl, rfl⟩)⟩
  | .assignElement _ x row col value =>
    obtain ⟨r, l, v, k, hr, hl, hv, hk, rfl, rfl⟩ := h
    have hslots := hc.slots_initial hall
    have hcells := ((hr.fits hslots before).append (hl.fits hslots _)).append (hv.fits hslots _)
    simp only [Stmt.accesses, slotCode_append, ← List.append_assoc]
    exact ⟨hcells.append (.single (a := ⟨c.owner, x, .use .writeArray⟩) (by simp) hslots hk),
      (((hc.expr row).expr col).expr value).use (List.forall_mem_singleton.mpr ⟨rfl, rfl⟩)⟩
  | .branch pos cond yes no =>
    exact branch_fits pos cond (Stmt.emitsFitting yes) (Stmt.emitsFitting no) h hc hall
  | .whileLoop _ cond body =>
    obtain ⟨d, b, hd, hb, rfl⟩ := h
    have hslots := hc.slots_initial hall
    rw [Stmt.accesses, ← List.append_assoc] at hall ⊢
    obtain ⟨hbody, hpast⟩ := Stmt.emitsFitting body hb ((hc.label 2).expr cond) hall
    have hcode := (hd.fits hslots before).append hbody
    exact ⟨by simpa using hcode, hpast.of_eq rfl rfl (Nat.add_assoc ..).symm⟩
  | .countLoop pos index count body =>
    exact countLoop_fits pos index count (Stmt.emitsFitting body) h hc hall
  | .leave _ =>
    obtain ⟨label, -, rfl, rfl⟩ := h
    rw [Stmt.accesses, List.append_nil]
    exact ⟨.nil, hc⟩
  | .giveBack _ value =>
    rw [Stmt.Emits] at h
    split at h
    · rename_i habsent
      obtain rfl := Expr.eq_absent habsent
      obtain ⟨⟨k, -, rfl⟩, rfl⟩ := h
      rw [Stmt.accesses, Expr.accesses, List.append_nil]
      exact ⟨.nil, hc⟩
    · obtain ⟨v, hv, rfl, rfl⟩ := h
      have hslots := hc.slots_initial hall
      rw [Stmt.accesses, slotCode_append, show slotCode [on .ret 0] = [] from rfl, List.append_nil]
      exact ⟨hv.fits hslots before, hc.expr value⟩
  | .define pos name params body =>
    exact define_fits pos name params (Stmt.emitsFitting body) h hc hall
  | .perform _ name args =>
    obtain ⟨v, hv, rfl, rfl⟩ := h
    have hslots := hc.slots_initial hall
    rw [Stmt.accesses, slotCode_append,
      show slotCode [callOf name args.length, on .pop 0] = [] from rfl, List.append_nil]
    exact ⟨Expr.EmitsArguments.fits hv hslots before,
      hc.use (Expr.argumentAccesses_use c.owner args)⟩

/-- The code of statements fits their accesses. -/
theorem Stmt.EmitsAll.fits {K : List Cell} {stop : Option Bytes} {ss : List (Stmt Cell)}
    {σ τ : Progress} {code : List Instruction} (h : Stmt.EmitsAll K stop ss σ code τ) {c : Cursor}
    {before : List Access} (hc : c.At σ before) (hall : before ++ Stmt.allAccesses ss c <+: all) :
    Fits all before (Stmt.allAccesses ss c) (slotCode code) ∧
      Cursor.At ⟨c.owner, c.functions + (Stmt.allFunctions ss).length,
        c.labels + Stmt.allLabelCount ss⟩ τ (before ++ Stmt.allAccesses ss c) := by
  match ss with
  | [] =>
    obtain ⟨rfl, rfl⟩ := h
    rw [Stmt.allAccesses, List.append_nil]
    exact ⟨.nil, hc⟩
  | s :: ss =>
    obtain ⟨d, rest, ρ, hs, hrest, rfl⟩ := h
    rw [Stmt.allAccesses, ← List.append_assoc] at hall ⊢
    obtain ⟨hfirst, hpast⟩ := Stmt.emitsFitting s hs hc ((List.prefix_append _ _).trans hall)
    obtain ⟨hfits, hend⟩ := Stmt.EmitsAll.fits hrest hpast hall
    rw [slotCode_append]
    refine ⟨hfirst.append hfits, ?_⟩
    rw [Stmt.allFunctions, List.length_append, Stmt.allLabelCount, ← Nat.add_assoc, ← Nat.add_assoc]
    exact hend

end

end

/-- The instructions on slots of a program are those for its accesses, in order. -/
theorem Tree.Emits.fits {K : List Cell} {t : Tree Cell} {code : List Instruction}
    (h : t.Emits K code) : Fits t.accesses [] t.accesses (slotCode code) := by
  obtain ⟨b, r, ρ, hb, ⟨k, -, rfl⟩, rfl⟩ := h
  have hstart : Cursor.At ⟨0, 0, 0⟩ ⟨0, []⟩ [] := ⟨rfl, rfl, Nat.le_refl 0, fun _ _ => rfl⟩
  obtain ⟨hbody, -⟩ := Stmt.EmitsAll.fits hb hstart (List.prefix_rfl : t.accesses <+: t.accesses)
  have hcode : slotCode ([on .frame ρ.slots.length] ++ b ++ [on .constant k, on .ret 0]) =
      slotCode b := by
    rw [slotCode_append, slotCode_append, show slotCode [on .constant k, on .ret 0] = [] from rfl,
      List.append_nil]
    rfl
  rw [hcode]
  exact hbody

end StackScript
