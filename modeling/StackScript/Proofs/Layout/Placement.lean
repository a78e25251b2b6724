import StackScript.Proofs.Generate.Assembly
import StackScript.Proofs.Generate.Slots
import StackScript.Proofs.Layout.Basic

/-!
# From the generated stream to the layout

Linking a generated stream puts the code of every piece of the tree where its layout says. Pieces
are found in the stream by what stands before and after them, and the place of a piece is the number
of linked instructions before it.
-/

namespace StackScript

open Instruction

variable {seen vars : List Bytes} {code stream : List Instruction} {hidden : List Nat} {k : Nat}
  {stop : Option Bytes} {target : Option Nat} {ρ σ : Progress} {body : Stmt Cell}
  {symbols : Symbols}

/-- A generated stream was linked to the program of a layout, which knows the functions of the
symbols. -/
structure Placed (L : Layout) (symbols : Symbols) (stream : List Instruction) : Prop where
  /-- The program is the linked stream. -/
  linked : Linked symbols stream L.program.code
  /-- The places of instructions are numbers of 64 bits. -/
  fits : L.program.code.size < 0x8000000000000000
  /-- The indices of constants are numbers of 64 bits. -/
  pool : L.program.constants.size < 0x10000000000000000
  /-- A function begins where its label stands. -/
  entry : ∀ {name pre y post}, stream = pre ++ y :: post → y.label = functionLabel name →
    L.entry name = linkedPlace symbols pre
  /-- A function of the program has the signature of its declaration, and a label. -/
  declared : ∀ {name d f}, functionNamed? L.functions name = some d →
    symbols.function? name = some f → f.isHost = false ∧ f.declared = d.params.length ∧
      ∃ pre y post, stream = pre ++ y :: post ∧ y.label = functionLabel name
  /-- Any other function is one of the host. -/
  imported : ∀ {name f}, functionNamed? L.functions name = none →
    symbols.function? name = some f → f.isHost = true ∧ L.native name = some f.dispatch

section Width

variable (symbols : Symbols)

/-- An instruction takes one place. -/
theorem linkedPlace_on (op : Opcode) (n : Nat) (h : op ≠ .noop ∧ op ≠ .call) :
    linkedPlace symbols [on op n] = 1 := by
  unfold linkedPlace
  rw [List.flatMap_singleton, expansion_of_not_call h.2]
  simp [on, h.1]

/-- A jump takes one place. -/
theorem linkedPlace_jump (l : Bytes) : linkedPlace symbols [jumpTo .jump l] = 1 := rfl

/-- A branch takes one place. -/
theorem linkedPlace_jumpUnless (l : Bytes) : linkedPlace symbols [jumpTo .jumpUnless l] = 1 := rfl

/-- A marker takes no place. -/
theorem linkedPlace_marker (l : Bytes) : linkedPlace symbols [marker l] = 0 := rfl

/-- Code takes the places of its instructions. -/
theorem linkedPlace_cons_cons (i j : Instruction) (code : List Instruction) :
    linkedPlace symbols (i :: j :: code) =
      linkedPlace symbols [i] + linkedPlace symbols (j :: code) :=
  linkedPlace_append symbols [i] (j :: code)

end Width

/-- The instructions of an operation have places of their own. -/
theorem countP_le_linkedPlace (symbols : Symbols) {op : Opcode} (hop : op ≠ .noop ∧ op ≠ .call)
    (code : List Instruction) :
    (code.countP fun i => i.op == op) ≤ linkedPlace symbols code := by
  induction code with
  | nil => exact Nat.zero_le _
  | cons i rest ih =>
    rw [← List.singleton_append, List.countP_append, linkedPlace_append]
    refine Nat.add_le_add ?_ ih
    by_cases h : i.op = op
    · unfold linkedPlace
      rw [List.flatMap_singleton, expansion_of_not_call (by simp [h, hop.2])]
      simp [h, hop.1]
    · simp [h]

namespace Placed

variable {L : Layout} {symbols : Symbols} {stream : List Instruction}
  (hP : Placed L symbols stream) (pre post : List Instruction)
include hP

/-- A place in the stream is a place in the program or the one behind it. -/
theorem place_le (hstream : stream = pre ++ post) :
    linkedPlace symbols pre ≤ L.program.code.size := by
  rw [hP.linked.size, hstream, linkedPlace_append]
  exact Nat.le_add_right _ _

/-- An instruction with an operand stands at its place. -/
theorem has_on {op : Opcode} {n : Nat} (hstream : stream = pre ++ on op n :: post)
    (hnoop : op ≠ .noop) (hjump : op.isJump = false) (hn : n < 0x10000000000000000) :
    L.Has (linkedPlace symbols pre) op n := by
  obtain ⟨i, hi, hop, hoperand⟩ := hP.linked.plain hstream hnoop hjump
  refine ⟨i, hi, hop, ?_⟩
  rw [hoperand, UInt64.toNat_ofNat']
  exact Nat.mod_eq_of_lt hn

/-- A jump stands at its place and goes to the place of its label. -/
theorem has_jump (op : Opcode) (l : Bytes) (pre' post' : List Instruction)
    (hstream : stream = pre ++ jumpTo op l :: post) (hcall : op ≠ .call) (hjump : op.isJump = true)
    (hstream' : stream = pre' ++ marker l :: post') (hl : l ≠ []) :
    L.Has (linkedPlace symbols pre) op (linkedPlace symbols pre') := by
  obtain ⟨i, hi, hop, hoperand⟩ := hP.linked.jump hstream hcall hjump hstream' hl
  refine ⟨i, hi, hop, ?_⟩
  have := hP.place_le pre' _ hstream'
  have := hP.fits
  rw [hoperand, UInt64.toNat_ofNat']
  exact Nat.mod_eq_of_lt (by omega)

/-- An instruction that pushes a literal stands at its place. -/
theorem pushes {v : Cell} (hstream : stream = pre ++ on .constant k :: post)
    (hk : StandsFor L.program.constants.toList k v) : L.Pushes (linkedPlace symbols pre) v := by
  refine ⟨k, hk, hP.has_on pre post hstream nofun rfl ?_⟩
  obtain ⟨hlt, -⟩ := List.getElem?_eq_some_iff.mp hk
  have := hP.pool
  rw [Array.length_toList] at hlt
  omega

/-- A call stands at its place. -/
theorem callAt {name : Bytes} (hstream : stream = pre ++ callOf name k :: post) :
    L.CallAt name k (linkedPlace symbols pre)
      (linkedPlace symbols pre + linkedPlace symbols [callOf name k]) := by
  obtain ⟨f, hf, hminimum, hmaximum, hkind⟩ := hP.linked.call hstream
  unfold Layout.CallAt
  split
  · rename_i d hd
    obtain ⟨huser, hdeclared, pre', y, post', hentry, hy⟩ := hP.declared hd hf
    -- The linker went by the symbols, the layout by the tree; they agree on whose function it is.
    rcases hkind with ⟨hhost, -⟩ | ⟨-, hle, hwidth, hpads, hcall⟩
    · rw [huser] at hhost
      cases hhost
    · rw [hdeclared] at hle hwidth hpads hcall
      have hpad : ((d.params.length : Int) - k).toNat = d.params.length - k := by omega
      rw [hpad] at hwidth hpads hcall
      refine ⟨by exact_mod_cast hle, fun j hj => ?_, ?_, by rw [hwidth, Nat.add_assoc]⟩
      · obtain ⟨i, hi, hop, hoperand⟩ := hpads j hj
        exact ⟨i, hi, hop, by rw [hoperand]; rfl⟩
      · obtain ⟨i, hi, hop, hoperand⟩ := hcall hentry hy
        have := hP.place_le pre' _ hentry
        have := hP.fits
        refine ⟨i, hi, hop, ?_⟩
        rw [hoperand, UInt64.toNat_ofNat', hP.entry hentry hy]
        exact Nat.mod_eq_of_lt (by omega)
  · rename_i hnone
    obtain ⟨hhost, hnative⟩ := hP.imported hnone hf
    rcases hkind with ⟨-, hwidth, i, hi, hop, hoperand⟩ | ⟨huser, -⟩
    · refine ⟨f.dispatch, i, hnative, hi, hop, ?_, by rw [hwidth]⟩
      rw [hoperand, UInt64.ofNat_toNat]
      exact HostCall.unpack_pack hmaximum f.dispatch
    · rw [hhost] at huser
      cases huser

end Placed

mutual

/-- The code of an expression stands where the stream has it. -/
theorem Placed.expr_at {L : Layout} {symbols : Symbols} {stream : List Instruction}
    (hP : Placed L symbols stream) {slots vars : List Bytes} (hslots : slots <+: vars)
    (hvars : vars.length < 0x10000000000000000) {e : Expr Cell} {code : List Instruction}
    (h : e.Emits L.program.constants.toList slots code) (pre post : List Instruction)
    (hstream : stream = pre ++ code ++ post) :
    e.At L vars (linkedPlace symbols pre) (linkedPlace symbols pre + linkedPlace symbols code) := by
  -- The parts of the code are placed behind ever longer parts of the stream; how far each part
  -- reaches is then a sum of places.
  match e with
  | .absent => exact h.elim
  | .literal _ v =>
    obtain ⟨k, hk, rfl⟩ := h
    have hi : L.Pushes (linkedPlace symbols pre) v := hP.pushes pre post (by simpa using hstream) hk
    exact ⟨hi, by rw [linkedPlace_on _ _ _ (by decide)]⟩
  | .load _ x =>
    obtain ⟨k, hk, rfl⟩ := h
    have hk := slotOf_of_initial hslots hk
    have hi : L.Has (linkedPlace symbols pre) .load k :=
      hP.has_on pre post (by simpa using hstream) nofun rfl (Nat.lt_trans (slotOf_lt hk) hvars)
    exact ⟨k, hk, hi, by rw [linkedPlace_on _ _ _ (by decide)]⟩
  | .element _ x row col =>
    obtain ⟨r, c, k, hr, hc, hk, rfl⟩ := h
    have hk := slotOf_of_initial hslots hk
    have hr := hP.expr_at hslots hvars hr pre (c ++ [on .readArray k] ++ post) (by simp [hstream])
    have hc := hP.expr_at hslots hvars hc (pre ++ r) ([on .readArray k] ++ post) (by simp [hstream])
    have hi : L.Has (linkedPlace symbols (pre ++ r ++ c)) .readArray k :=
      hP.has_on _ post (by simp [hstream]) nofun rfl (Nat.lt_trans (slotOf_lt hk) hvars)
    simp only [linkedPlace_append, linkedPlace_on symbols .readArray k (by decide),
      ← Nat.add_assoc] at hc hi ⊢
    exact ⟨_, _, k, hr, hc, hk, hi, rfl⟩
  | .newArray _ rows cols fill =>
    obtain ⟨r, c, k, hr, hc, hk, rfl⟩ := h
    have hr := hP.expr_at hslots hvars hr pre (c ++ [on .constant k, on .makeArray 0] ++ post)
      (by simp [hstream])
    have hc := hP.expr_at hslots hvars hc (pre ++ r) ([on .constant k, on .makeArray 0] ++ post)
      (by simp [hstream])
    have hi := hP.pushes (pre ++ r ++ c) ([on .makeArray 0] ++ post) (by simp [hstream]) hk
    have hm : L.Has (linkedPlace symbols (pre ++ r ++ c ++ [on .constant k])) .makeArray 0 :=
      hP.has_on _ post (by simp [hstream]) nofun rfl (by decide)
    rw [← List.singleton_append (l := [on .makeArray 0])]
    simp only [linkedPlace_append, linkedPlace_on symbols .constant k (by decide),
      linkedPlace_on symbols .makeArray 0 (by decide), ← Nat.add_assoc] at hc hi hm ⊢
    exact ⟨_, _, hr, hc, hi, hm, rfl⟩
  | .call _ name args =>
    obtain ⟨c, hc, rfl⟩ := h
    have ha := hP.arguments_at hslots hvars hc pre ([callOf name args.length] ++ post)
      (by simp [hstream])
    have hi : L.CallAt name args.length _ _ := hP.callAt (pre ++ c) post (by simp [hstream])
    simp only [linkedPlace_append, ← Nat.add_assoc] at hi ⊢
    exact ⟨_, ha, hi⟩
  | .binary _ op left right =>
    obtain ⟨l, r, o, ho, hl, hr, rfl⟩ := h
    have hop : (o ≠ .noop ∧ o ≠ .call) ∧ o.isJump = false := by
      cases op <;> cases ho <;> decide
    have hl := hP.expr_at hslots hvars hl pre (r ++ [on o 0] ++ post) (by simp [hstream])
    have hr := hP.expr_at hslots hvars hr (pre ++ l) ([on o 0] ++ post) (by simp [hstream])
    have hi : L.Has (linkedPlace symbols (pre ++ l ++ r)) o 0 :=
      hP.has_on _ post (by simp [hstream]) hop.1.1 hop.2 (by decide)
    simp only [linkedPlace_append, linkedPlace_on symbols o 0 hop.1, ← Nat.add_assoc] at hr hi ⊢
    exact ⟨_, _, o, ho, hl, hr, hi, rfl⟩
  | .negation _ operand =>
    obtain ⟨c, hc, rfl⟩ := h
    have hc := hP.expr_at hslots hvars hc pre ([on .not 0] ++ post) (by simp [hstream])
    have hi : L.Has (linkedPlace symbols (pre ++ c)) .not 0 :=
      hP.has_on _ post (by simp [hstream]) nofun rfl (by decide)
    simp only [linkedPlace_append, linkedPlace_on symbols .not 0 (by decide),
      ← Nat.add_assoc] at hi ⊢
    exact ⟨_, hc, hi, rfl⟩

/-- The code of the arguments of a call stands where the stream has it. -/
theorem Placed.arguments_at {L : Layout} {symbols : Symbols} {stream : List Instruction}
    (hP : Placed L symbols stream) {slots vars : List Bytes} (hslots : slots <+: vars)
    (hvars : vars.length < 0x10000000000000000) {es : List (Expr Cell)} {code : List Instruction}
    (h : Expr.EmitsArguments L.program.constants.toList slots es code)
    (pre post : List Instruction) (hstream : stream = pre ++ code ++ post) :
    Expr.ArgumentsAt L vars es (linkedPlace symbols pre)
      (linkedPlace symbols pre + linkedPlace symbols code) := by
  match es with
  | [] =>
    cases h
    rfl
  | e :: es =>
    obtain ⟨rest, c, hr, hc, rfl⟩ := h
    have hr := hP.arguments_at hslots hvars hr pre (c ++ post) (by simp [hstream])
    have hc := hP.expr_at hslots hvars hc (pre ++ rest) post (by simp [hstream])
    simp only [linkedPlace_append, ← Nat.add_assoc] at hc ⊢
    exact ⟨_, hr, hc⟩

end

/-- The slots that are given out have names that were seen, or hidden ones. -/
def Progress.Seen (σ : Progress) (seen : List Bytes) : Prop :=
  ∀ x ∈ σ.slots, x ∈ seen ∨ isPlainName x = false

/-- What is declared is seen after. -/
theorem Progress.Seen.after {τ : Progress} {names : List Bytes} {count : Nat} (h : σ.Seen seen)
    (hdeclares : σ.Declares τ count names code) : τ.Seen (seen ++ names) := by
  obtain ⟨new, hslots, -, -, hnames⟩ := hdeclares
  intro x hx
  rw [hslots] at hx
  rcases List.mem_append.mp hx with hx | hx
  · exact (h x hx).imp_left (List.mem_append_left _)
  · exact (hnames x hx).imp_left (List.mem_append_right _)

/-- A variable that was not seen before gets the slot of its declaration. -/
theorem slotOf_of_fresh {slots : List Bytes} {x : Bytes} (h : slots ++ [x] <+: vars)
    (hx : x ∉ slots) : slotOf vars x = some slots.length := by
  refine slotOf_of_initial h ?_
  unfold slotOf
  rw [List.findIdx?_append, List.findIdx?_eq_none_iff.mpr]
  · simp
  · intro y hy
    simpa using fun he : y = x => hx (he ▸ hy)

/-- The variables of a statement are declared once and have plain names, and so are those of the
functions that are declared in it. The names that were `seen` before are those of the slots. -/
structure Stmt.Orderly (L : Layout) (s : Stmt Cell) (σ : Progress) (seen : List Bytes) : Prop where
  declares : s.declaresOnce seen = true
  regular : s.regular L.functions = true
  seen : σ.Seen seen
  functions : ∀ d ∈ s.functions, d.params.Nodup ∧ d.body.declaresOnce d.params = true ∧
    d.body.regular L.functions = true

/-- What is known where the code of a statement begins: where a `leave` goes, and which slots the
hidden indices of the loops around it have. -/
structure Within (symbols : Symbols) (stream : List Instruction) (vars : List Bytes)
    (stop : Option Bytes) (target : Option Nat) (hidden : List Nat) (σ : Progress) : Prop where
  /-- The slots are numbers of 64 bits. -/
  small : vars.length < 0x10000000000000000
  /-- The label of the loop that a `leave` leaves has a place. -/
  stop : ∀ l, stop = some l → l ≠ [] ∧ ∃ pre post, stream = pre ++ marker l :: post ∧
    target = some (linkedPlace symbols pre)
  /-- The hidden indices were declared before. -/
  hidden : ∀ k ∈ hidden, ∃ n ≤ σ.labels, vars[k]? = some (hiddenName n)

/-- What is known stays known when more labels are made. -/
theorem Within.later (h : Within symbols stream vars stop target hidden σ)
    (hρ : σ.labels ≤ ρ.labels) : Within symbols stream vars stop target hidden ρ :=
  { h with
    hidden := fun k hk =>
      let ⟨n, hn, hname⟩ := h.hidden k hk
      ⟨n, Nat.le_trans hn hρ, hname⟩ }

/-- What is known inside a loop whose end is marked. -/
theorem Within.loop {pre post : List Instruction} {l : Bytes}
    (h : Within symbols stream vars stop target hidden σ) (hl : l ≠ [])
    (hstream : stream = pre ++ marker l :: post) :
    Within symbols stream vars (some l) (some (linkedPlace symbols pre)) hidden σ :=
  { h with
    stop := fun l' hl' => by
      cases hl'
      exact ⟨hl, pre, post, hstream, rfl⟩ }

/-- Leaving a function with the value false stands where the stream has it. -/
theorem Placed.false_at {L : Layout} (hP : Placed L symbols stream)
    (h : EmitsFalse L.program.constants.toList code) (pre post : List Instruction)
    (hstream : stream = pre ++ code ++ post) :
    L.FalseAt (linkedPlace symbols pre) (linkedPlace symbols pre + linkedPlace symbols code) := by
  obtain ⟨k, hk, rfl⟩ := h
  have hi := hP.pushes pre ([on .ret 0] ++ post) (by simp [hstream]) hk
  have hr : L.Has (linkedPlace symbols (pre ++ [on .constant k])) .ret 0 :=
    hP.has_on _ post (by simp [hstream]) nofun rfl (by decide)
  rw [← List.singleton_append (l := [on .ret 0])]
  simp only [linkedPlace_append, linkedPlace_on symbols .constant k (by decide),
    linkedPlace_on symbols .ret 0 (by decide)] at hr ⊢
  exact ⟨hi, hr, rfl⟩

/-- Stores take one place each. -/
theorem linkedPlace_storesOf (symbols : Symbols) (slots params : List Bytes) :
    linkedPlace symbols (params.map fun x => on .store ((slotOf slots x).getD 0)) =
      params.length := by
  induction params with
  | nil => rfl
  | cons x params ih =>
    rw [List.map_cons, ← List.singleton_append, linkedPlace_append, ih,
      linkedPlace_on _ _ _ (by decide), List.length_cons, Nat.add_comm]

/-- The beginning of a function stands where the stream has it. -/
theorem Placed.prologue_at {L : Layout} (hP : Placed L symbols stream) {params : List Bytes}
    {n : Nat} {τ : Progress} {names : List Bytes} {body : List Instruction} (hρ : ρ.slots = params)
    (h : ρ.Declares τ n names body) (pre post : List Instruction)
    (hstream : stream = pre ++ on .frame τ.slots.length :: storesOf params ++ body ++ post) :
    L.PrologueAt params n τ.slots (linkedPlace symbols pre) ∧
      τ.slots.length < 0x10000000000000000 := by
  have hpre : params <+: τ.slots := hρ ▸ h.slots_initial
  have hlength : τ.slots.length = params.length + n := hρ ▸ h.slots_length
  -- Every slot has a store of its own in the code, so there are fewer slots than places.
  have hsmall : τ.slots.length < 0x10000000000000000 := by
    have hle := hP.place_le (pre ++ [on .frame τ.slots.length] ++ storesOf params ++ body) post
      (by simp [hstream])
    have hstores : stores body ≤ _ := countP_le_linkedPlace symbols (by decide) body
    obtain ⟨-, -, -, hcount, -⟩ := h
    have hfits := hP.fits
    simp only [linkedPlace_append] at hle
    rw [storesOf, linkedPlace_storesOf] at hle
    omega
  refine ⟨⟨hpre, hlength, hP.has_on pre _ (by simpa using hstream) nofun rfl hsmall, ?_⟩, hsmall⟩
  intro i x hx
  obtain ⟨hi, hxi⟩ := List.getElem?_eq_some_iff.mp hx
  obtain ⟨k, hk⟩ : ∃ k, slotOf params x = some k := by
    unfold slotOf
    rw [← Option.isSome_iff_exists, List.findIdx?_isSome, List.any_eq_true]
    exact ⟨x, List.mem_of_getElem? hx, by simp⟩
  have hkvars := slotOf_of_initial hpre hk
  refine ⟨k, hkvars, ?_⟩
  -- The store stands behind those of the parameters before it.
  have hsplit (f : Bytes → Instruction) :
      params.map f = (params.take i).map f ++ f x :: (params.drop (i + 1)).map f := by
    rw [← List.map_cons, ← List.map_append, ← hxi, ← List.drop_eq_getElem_cons hi,
      List.take_append_drop]
  have hstore : L.Has (linkedPlace symbols (pre ++ [on .frame τ.slots.length] ++
      (params.take i).map fun x => on .store ((slotOf params x).getD 0))) .store k := by
    refine hP.has_on _ ((params.drop (i + 1)).map (fun x => on .store ((slotOf params x).getD 0)) ++
      body ++ post) ?_ nofun rfl (Nat.lt_trans (slotOf_lt hkvars) hsmall)
    rw [hstream, storesOf, hsplit, hk]
    simp
  rw [linkedPlace_append, linkedPlace_append, linkedPlace_storesOf,
    linkedPlace_on _ _ _ (by decide), List.length_take, Nat.min_eq_left (Nat.le_of_lt hi)] at hstore
  exact hstore

/-- The code of the statement stands where a stream has it. -/
def Stmt.Lays (L : Layout) (symbols : Symbols) (stream : List Instruction) (s : Stmt Cell) : Prop :=
  ∀ ⦃vars : List Bytes⦄ ⦃stop : Option Bytes⦄ ⦃target : Option Nat⦄ ⦃hidden : List Nat⦄
    ⦃σ τ : Progress⦄ ⦃code : List Instruction⦄,
    s.Emits L.program.constants.toList stop σ code τ → τ.slots <+: vars →
    Within symbols stream vars stop target hidden σ → ∀ seen, (L.once → s.Orderly L σ seen) →
    ∀ pre post, stream = pre ++ code ++ post →
      s.At L vars target hidden (linkedPlace symbols pre)
        (linkedPlace symbols pre + linkedPlace symbols code)

section Statements

variable {L : Layout} {symbols : Symbols} {stream : List Instruction}
  (hP : Placed L symbols stream)
include hP

/-- A declaration stands where the stream has it. -/
theorem Placed.declare_lays (pos : Position) (x : Bytes) (value : Expr Cell) :
    (Stmt.declare pos x value).Lays L symbols stream := by
  intro vars stop target hidden σ τ code h hslots hw seen honce pre post hstream
  obtain ⟨c, hc, rfl, rfl⟩ := h
  have hc := hP.expr_at hslots hw.small hc pre ([on .store σ.slots.length] ++ post)
    (by simp [hstream])
  have hvars : vars[σ.slots.length]? = some x := by
    obtain ⟨rest, rfl⟩ := hslots
    simp [Progress.declare]
  have hlt := (List.getElem?_eq_some_iff.mp hvars).1
  have hi : L.Has (linkedPlace symbols (pre ++ c)) .store σ.slots.length :=
    hP.has_on _ post (by simp [hstream]) nofun rfl (Nat.lt_trans hlt hw.small)
  simp only [linkedPlace_append, linkedPlace_on symbols .store σ.slots.length (by decide),
    ← Nat.add_assoc] at hi ⊢
  refine ⟨_, _, hc, hvars, fun ho => slotOf_of_fresh hslots fun hx => ?_, hi, rfl⟩
  -- A name among the slots was seen before or is hidden, and this one is neither.
  have horder := honce ho
  have hfresh := horder.declares
  have hregular := horder.regular
  simp only [Stmt.declaresOnce, Stmt.regular, decide_eq_true_eq, Bool.and_eq_true]
    at hfresh hregular
  rcases horder.seen x hx with hx | hx
  · exact hfresh hx
  · rw [hregular.1] at hx
    cases hx

omit hP in
/-- The first of statements in sequence is orderly if they are. -/
theorem Stmt.Orderly.first {pos : Position} {s : Stmt Cell} {ss : List (Stmt Cell)}
    (h : (Stmt.block pos (s :: ss)).Orderly L σ seen) : s.Orderly L σ seen := by
  obtain ⟨hdeclares, hregular, hseen, hfunctions⟩ := h
  simp only [Stmt.declaresOnce, Stmt.allDeclareOnce, Stmt.regular, Stmt.allRegular,
    Bool.and_eq_true] at hdeclares hregular
  exact ⟨hdeclares.1, hregular.1, hseen, fun d hd => hfunctions d (List.mem_append_left _ hd)⟩

omit hP in
/-- The rest of statements in sequence is orderly, where the first ends, if they are. -/
theorem Stmt.Orderly.rest {pos : Position} {s : Stmt Cell} {ss : List (Stmt Cell)} {count : Nat}
    (h : (Stmt.block pos (s :: ss)).Orderly L σ seen) (hs : σ.Declares ρ count s.declared code) :
    (Stmt.block pos ss).Orderly L ρ (seen ++ s.declared) := by
  obtain ⟨hdeclares, hregular, hseen, hfunctions⟩ := h
  simp only [Stmt.declaresOnce, Stmt.allDeclareOnce, Stmt.regular, Stmt.allRegular,
    Bool.and_eq_true] at hdeclares hregular
  exact ⟨hdeclares.2, hregular.2, hseen.after hs,
    fun d hd => hfunctions d (List.mem_append_right _ hd)⟩

omit hP in
/-- The first part of a branch is orderly if the branch is. -/
theorem Stmt.Orderly.yes {pos : Position} {cond : Expr Cell} {yes no : Stmt Cell} {σ : Progress}
    {seen : List Bytes} (h : (Stmt.branch pos cond yes no).Orderly L σ seen) (n : Nat) :
    yes.Orderly L (σ.label n) seen := by
  obtain ⟨hdeclares, hregular, hseen, hfunctions⟩ := h
  simp only [Stmt.declaresOnce, Stmt.regular, Bool.and_eq_true] at hdeclares hregular
  exact ⟨hdeclares.1, hregular.1.2, hseen, fun d hd => hfunctions d (List.mem_append_left _ hd)⟩

omit hP in
/-- The second part of a branch is orderly, where the first ends, if the branch is. -/
theorem Stmt.Orderly.no {pos : Position} {cond : Expr Cell} {yes no : Stmt Cell} {σ ρ : Progress}
    {seen : List Bytes} {count : Nat} {code : List Instruction}
    (h : (Stmt.branch pos cond yes no).Orderly L σ seen)
    (hyes : σ.Declares ρ count yes.declared code) : no.Orderly L ρ (seen ++ yes.declared) := by
  obtain ⟨hdeclares, hregular, hseen, hfunctions⟩ := h
  simp only [Stmt.declaresOnce, Stmt.regular, Bool.and_eq_true] at hdeclares hregular
  exact ⟨hdeclares.2, hregular.2, hseen.after hyes,
    fun d hd => hfunctions d (List.mem_append_right _ hd)⟩

/-- A branch stands where the stream has it if its parts do. -/
theorem Placed.branch_lays (pos : Position) (cond : Expr Cell) {yes no : Stmt Cell}
    (hyes : yes.Lays L symbols stream) (hno : no.Lays L symbols stream) :
    (Stmt.branch pos cond yes no).Lays L symbols stream := by
  intro vars stop target hidden σ τ code h hslots hw seen honce pre post hstream
  rw [Stmt.Emits] at h
  -- Of the labels no more is used than that they are not empty.
  have hdone := generatedLabel_ne_nil (σ.labels + 1) "end"
  generalize generatedLabel (σ.labels + 1) "end" = done at hdone h
  split at h
  · rename_i habsent
    obtain rfl := Stmt.eq_absent habsent
    obtain ⟨c, y, hc, hy, rfl⟩ := h
    have hc := hP.expr_at (hy.declares.slots_initial.trans hslots) hw.small hc pre _
      (by simpa using hstream)
    have hj : L.Has (linkedPlace symbols (pre ++ c)) .jumpUnless (linkedPlace symbols
        (pre ++ c ++ [jumpTo .jumpUnless done] ++ y ++ [jumpTo .jump done])) :=
      hP.has_jump _ _ _ done _ _ (by simpa using hstream) nofun rfl (by simpa using hstream) hdone
    have hj' : L.Has (linkedPlace symbols (pre ++ c ++ [jumpTo .jumpUnless done] ++ y)) .jump
        (linkedPlace symbols
          (pre ++ c ++ [jumpTo .jumpUnless done] ++ y ++ [jumpTo .jump done])) :=
      hP.has_jump _ _ _ done _ _ (by simpa using hstream) nofun rfl (by simpa using hstream) hdone
    have hy := hyes hy hslots (hw.later (Nat.le_succ _)) seen (fun ho => (honce ho).yes 1)
      (pre ++ c ++ [jumpTo .jumpUnless done]) _ (by simpa using hstream)
    -- Markers have no place of their own, so the places of the parts add up.
    simp only [linkedPlace_append, linkedPlace_cons_cons, linkedPlace_jump, linkedPlace_jumpUnless,
      linkedPlace_marker, Nat.add_zero, ← Nat.add_assoc] at hj hy hj' ⊢
    exact ⟨_, _, hc, hj, hy, hj', rfl⟩
  · obtain ⟨c, y, n, ρ, hc, hy, hn, rfl⟩ := h
    have hotherwise := generatedLabel_ne_nil (σ.labels + 2) "false"
    generalize generatedLabel (σ.labels + 2) "false" = otherwise at hotherwise hstream ⊢
    have hyd := hy.declares
    have hρ := hn.declares.slots_initial.trans hslots
    have hlabels : σ.labels ≤ ρ.labels := Nat.le_trans (Nat.le_add_right _ _) hy.labels_le
    have hc := hP.expr_at (hyd.slots_initial.trans hρ) hw.small hc pre _ (by simpa using hstream)
    have hj : L.Has (linkedPlace symbols (pre ++ c)) .jumpUnless (linkedPlace symbols
        (pre ++ c ++ [jumpTo .jumpUnless otherwise] ++ y ++ [jumpTo .jump done])) :=
      hP.has_jump _ _ _ otherwise _ _ (by simpa using hstream) nofun rfl (by simpa using hstream)
        hotherwise
    have hj' : L.Has (linkedPlace symbols (pre ++ c ++ [jumpTo .jumpUnless otherwise] ++ y)) .jump
        (linkedPlace symbols (pre ++ c ++ [jumpTo .jumpUnless otherwise] ++ y ++
          [jumpTo .jump done, marker otherwise] ++ n)) :=
      hP.has_jump _ _ _ done _ _ (by simpa using hstream) nofun rfl (by simpa using hstream) hdone
    have hy := hyes hy hρ (hw.later (Nat.le_add_right _ _)) seen (fun ho => (honce ho).yes 2)
      (pre ++ c ++ [jumpTo .jumpUnless otherwise]) _ (by simpa using hstream)
    have hn := hno hn hslots (hw.later hlabels) _ (fun ho => (honce ho).no (hyd.of_slots rfl))
      (pre ++ c ++ [jumpTo .jumpUnless otherwise] ++ y ++ [jumpTo .jump done, marker otherwise]) _
      (by simpa using hstream)
    simp only [linkedPlace_append, linkedPlace_cons_cons, linkedPlace_jump, linkedPlace_jumpUnless,
      linkedPlace_marker, Nat.add_zero, ← Nat.add_assoc] at hj hy hj' hn ⊢
    exact ⟨_, _, hc, hj, hy, hj', hn⟩

/-- A loop stands where the stream has it if its body does. -/
theorem Placed.whileLoop_lays (pos : Position) (cond : Expr Cell)
    (hbody : body.Lays L symbols stream) :
    (Stmt.whileLoop pos cond body).Lays L symbols stream := by
  intro vars stop target hidden σ τ code h hslots hw seen honce pre post hstream
  obtain ⟨c, b, hc, hb, rfl⟩ := h
  -- Of a label it matters only that it is not empty and marks a place of the stream.
  have hdone := generatedLabel_ne_nil (σ.labels + 2) "end"
  generalize generatedLabel (σ.labels + 2) "end" = done at hdone hb hstream ⊢
  have hstart := generatedLabel_ne_nil (σ.labels + 1) "begin"
  generalize generatedLabel (σ.labels + 1) "begin" = start at hstart hstream ⊢
  have hend : stream = pre ++ [marker start] ++ c ++ [jumpTo .jumpUnless done] ++ b ++
      [jumpTo .jump start] ++ marker done :: post := by simpa using hstream
  have hc := hP.expr_at (hb.declares.slots_initial.trans hslots) hw.small hc (pre ++ [marker start])
    _ (by simpa using hstream)
  have hj : L.Has (linkedPlace symbols (pre ++ [marker start] ++ c)) .jumpUnless _ :=
    hP.has_jump _ _ _ done _ _ (by simpa using hstream) nofun rfl hend hdone
  have hj' : L.Has (linkedPlace symbols (pre ++ [marker start] ++ c ++ [jumpTo .jumpUnless done] ++
      b)) .jump (linkedPlace symbols pre) :=
    hP.has_jump _ _ _ start _ _ (by simpa using hstream) nofun rfl (by simpa using hstream) hstart
  have hb := hbody hb hslots ((hw.loop hdone hend).later (Nat.le_add_right _ _)) seen
    (fun ho => ⟨(honce ho).declares, by
      have := (honce ho).regular
      simp only [Stmt.regular, Bool.and_eq_true] at this
      exact this.2, (honce ho).seen, (honce ho).functions⟩)
    (pre ++ [marker start] ++ c ++ [jumpTo .jumpUnless done]) _ (by simpa using hstream)
  -- Markers take no place, so the parts follow each other without gaps.
  simp only [linkedPlace_append, linkedPlace_cons_cons, linkedPlace_jump, linkedPlace_jumpUnless,
    linkedPlace_marker, Nat.add_zero, ← Nat.add_assoc] at hc hj hj' hb ⊢
  exact ⟨_, _, hc, hj, hb, hj', rfl⟩

omit hP in
/-- What is known inside a counting loop: its index has a slot, one of its own if it is hidden. -/
theorem Within.count {index : Bytes} (h : Within symbols stream vars stop target hidden σ)
    (hk : slotOf vars (σ.indexName index) = some k) :
    IndexAt vars hidden index k ∧
      Within symbols stream vars stop target (hiddenWith hidden index k) (σ.enterCount index) := by
  have hlabels := σ.enterCount_labels index
  have hlater := h.later (Nat.le_trans (Nat.le_add_right _ 2) hlabels)
  unfold IndexAt hiddenWith
  unfold Progress.indexName at hk
  split
  · rename_i hempty
    rw [if_pos hempty] at hk
    refine ⟨⟨⟨_, hk⟩, fun hmem => ?_⟩, { hlater with hidden := fun j hj => ?_ }⟩
    · -- The hidden name of this loop has a label that was not made before.
      obtain ⟨n, hn, hname⟩ := h.hidden k hmem
      rw [slotOf_eq_some hk] at hname
      have := hiddenName_inj (Option.some.inj hname)
      omega
    · rcases List.mem_cons.mp hj with rfl | hj
      · refine ⟨_, ?_, slotOf_eq_some hk⟩
        change _ ≤ σ.labels + if index.isEmpty then 3 else 2
        rw [if_pos hempty]
      · exact hlater.hidden j hj
  · rename_i hempty
    rw [if_neg hempty] at hk
    exact ⟨hk, hlater⟩

/-- A counting loop stands where the stream has it if its body does. -/
theorem Placed.countLoop_lays (pos : Position) (index : Bytes) (count : Expr Cell)
    (hbody : body.Lays L symbols stream) :
    (Stmt.countLoop pos index count body).Lays L symbols stream := by
  intro vars stop target hidden σ τ code h hslots hw seen honce pre post hstream
  obtain ⟨c, b, k, k0, k1, hk, hk0, hc, hb, hk1, rfl⟩ := h
  have hdone := generatedLabel_ne_nil (σ.labels + 2) "end"
  generalize generatedLabel (σ.labels + 2) "end" = done at hdone hb hstream ⊢
  have hstart := generatedLabel_ne_nil (σ.labels + 1) "begin"
  generalize generatedLabel (σ.labels + 1) "begin" = start at hstart hstream ⊢
  have hρ := hb.declares.slots_initial.trans hslots
  have hk := slotOf_of_initial hρ hk
  have hsmall := Nat.lt_trans (slotOf_lt hk) hw.small
  -- The places of the parts, one behind the other.
  let head := pre ++ [on .constant k0, on .store k, marker start, on .load k]
  let test := head ++ c ++ [on .lt 0, jumpTo .jumpUnless done]
  let next := test ++ b ++ [on .load k, on .constant k1, on .add 0, on .store k]
  have hend : stream = next ++ [jumpTo .jump start] ++ marker done :: post := by
    simpa [next, test, head] using hstream
  obtain ⟨hindex, hin⟩ := (hw.loop hdone hend).count hk
  have h0 := hP.pushes pre _ (by simpa using hstream) hk0
  have h1 : L.Has (linkedPlace symbols (pre ++ [on .constant k0])) .store k :=
    hP.has_on _ _ (by simpa using hstream) nofun rfl hsmall
  have h2 : L.Has (linkedPlace symbols (pre ++ [on .constant k0, on .store k, marker start]))
      .load k := hP.has_on _ _ (by simpa using hstream) nofun rfl hsmall
  have hc := hP.expr_at hρ hw.small hc head _ (by simpa [head] using hstream)
  have h3 : L.Has (linkedPlace symbols (head ++ c)) .lt 0 :=
    hP.has_on _ _ (by simpa [head] using hstream) nofun rfl (by decide)
  have h4 : L.Has (linkedPlace symbols (head ++ c ++ [on .lt 0])) .jumpUnless _ :=
    hP.has_jump _ _ _ done _ _ (by simpa [head] using hstream) nofun rfl hend hdone
  have hb := hbody hb hslots hin _ (fun ho => ⟨(honce ho).declares, by
      have := (honce ho).regular
      simp only [Stmt.regular, Bool.and_eq_true] at this
      exact this.2, (honce ho).seen.after (σ.enterCount_declares index k), (honce ho).functions⟩)
    test _ (by simpa [test, head] using hstream)
  have h5 : L.Has (linkedPlace symbols (test ++ b)) .load k :=
    hP.has_on _ _ (by simpa [test, head] using hstream) nofun rfl hsmall
  have h6 := hP.pushes (test ++ b ++ [on .load k]) _ (by simpa [test, head] using hstream) hk1
  have h7 : L.Has (linkedPlace symbols (test ++ b ++ [on .load k, on .constant k1])) .add 0 :=
    hP.has_on _ _ (by simpa [test, head] using hstream) nofun rfl (by decide)
  have h8 : L.Has (linkedPlace symbols (test ++ b ++ [on .load k, on .constant k1, on .add 0]))
      .store k := hP.has_on _ _ (by simpa [test, head] using hstream) nofun rfl hsmall
  have h9 : L.Has (linkedPlace symbols next) .jump
      (linkedPlace symbols (pre ++ [on .constant k0, on .store k])) :=
    hP.has_jump _ _ _ start _ _ (by simpa using hend) nofun rfl (by simpa using hstream) hstart
  simp only [head, test, next, linkedPlace_append, linkedPlace_cons_cons, linkedPlace_jump,
    linkedPlace_jumpUnless, linkedPlace_marker, linkedPlace_on symbols .constant k0 (by decide),
    linkedPlace_on symbols .constant k1 (by decide), linkedPlace_on symbols .store k (by decide),
    linkedPlace_on symbols .load k (by decide), linkedPlace_on symbols .lt 0 (by decide),
    linkedPlace_on symbols .add 0 (by decide), Nat.add_zero, ← Nat.add_assoc]
    at h1 h2 hc h3 h4 hb h5 h6 h7 h8 h9 ⊢
  exact ⟨k, _, _, hindex, h0, h1, h2, hc, h3, h4, hb, h5, h6, h7, h8, h9, rfl⟩

/-- A function stands where the stream has it if its body does. -/
theorem Placed.define_lays (pos : Position) (name : Bytes) (params : List Bytes)
    (hbody : body.Lays L symbols stream) :
    (Stmt.define pos name params body).Lays L symbols stream := by
  intro vars stop target hidden σ τ code h hslots hw seen honce pre post hstream
  obtain ⟨b, r, ρ, hb, hr, rfl, rfl⟩ := h
  have hdone := generatedLabel_ne_nil (σ.labels + 1) "function-end"
  generalize generatedLabel (σ.labels + 1) "function-end" = done at hdone hstream ⊢
  let head := pre ++ [jumpTo .jump done, marker (functionLabel name)]
  let start := head ++ [on .frame ρ.slots.length] ++ storesOf params
  have hend : stream = start ++ b ++ r ++ marker done :: post := by
    simpa [start, head] using hstream
  have hj : L.Has (linkedPlace symbols pre) .jump _ :=
    hP.has_jump _ _ _ done _ _ (by simpa using hstream) nofun rfl hend hdone
  have hentry : L.entry name = linkedPlace symbols (pre ++ [jumpTo .jump done]) :=
    hP.entry (y := marker (functionLabel name)) (by simpa using hstream) rfl
  obtain ⟨hprologue, hsmall⟩ := hP.prologue_at rfl hb.declares head (r ++ marker done :: post)
    (by simpa [head] using hstream)
  -- The body has variables of its own, but where a `leave` goes is as it was around the function.
  have hin : Within symbols stream ρ.slots stop target [] ⟨σ.labels + 1, params⟩ :=
    ⟨hsmall, hw.stop, nofun⟩
  have hb := hbody hb List.prefix_rfl hin params (fun ho => by
      obtain ⟨-, hdeclares, hregular⟩ := (honce ho).functions _ List.mem_cons_self
      exact ⟨hdeclares, hregular, fun x hx => .inl hx,
        fun d hd => (honce ho).functions d (List.mem_cons_of_mem _ hd)⟩)
    start _ (by simpa [start, head] using hstream)
  have hr := hP.false_at hr (start ++ b) _ (by simpa using hend)
  have hstores : linkedPlace symbols (storesOf params) = params.length :=
    linkedPlace_storesOf symbols params params
  simp only [head, start, linkedPlace_append, linkedPlace_cons_cons, linkedPlace_jump,
    linkedPlace_marker, linkedPlace_on symbols .frame ρ.slots.length (by decide), hstores,
    Nat.add_zero, ← Nat.add_assoc] at hj hentry hprologue hb hr ⊢
  exact ⟨ρ.slots, _, hj, hentry, hprologue, hb, hr⟩

end Statements

mutual

/-- The code of a statement stands where the stream has it. -/
theorem Placed.stmt_lays {L : Layout} {symbols : Symbols} {stream : List Instruction}
    (hP : Placed L symbols stream) (s : Stmt Cell) : s.Lays L symbols stream := by
  match s with
  | .absent =>
    intro vars stop target hidden σ τ code h hslots hw seen honce pre post hstream
    obtain ⟨rfl, rfl⟩ := h
    rfl
  | .block pos body => exact hP.block_lays pos body
  | .declare pos x value => exact hP.declare_lays pos x value
  | .assign _ x value =>
    intro vars stop target hidden σ τ code h hslots hw seen honce pre post hstream
    obtain ⟨c, k, hc, hk, rfl, rfl⟩ := h
    have hk := slotOf_of_initial hslots hk
    have hc := hP.expr_at hslots hw.small hc pre ([on .store k] ++ post) (by simp [hstream])
    have hi : L.Has (linkedPlace symbols (pre ++ c)) .store k :=
      hP.has_on _ post (by simp [hstream]) nofun rfl (Nat.lt_trans (slotOf_lt hk) hw.small)
    simp only [linkedPlace_append, linkedPlace_on symbols .store k (by decide),
      ← Nat.add_assoc] at hi ⊢
    exact ⟨_, k, hc, hk, hi, rfl⟩
  | .assignElement _ x row col value =>
    intro vars stop target hidden σ τ code h hslots hw seen honce pre post hstream
    obtain ⟨r, c, v, k, hr, hc, hv, hk, rfl, rfl⟩ := h
    have hk := slotOf_of_initial hslots hk
    have hr := hP.expr_at hslots hw.small hr pre _ (by simpa using hstream)
    have hc := hP.expr_at hslots hw.small hc (pre ++ r) _ (by simpa using hstream)
    have hv := hP.expr_at hslots hw.small hv (pre ++ r ++ c) _ (by simpa using hstream)
    have hi : L.Has (linkedPlace symbols (pre ++ r ++ c ++ v)) .writeArray k :=
      hP.has_on _ post (by simp [hstream]) nofun rfl (Nat.lt_trans (slotOf_lt hk) hw.small)
    simp only [linkedPlace_append, linkedPlace_on symbols .writeArray k (by decide),
      ← Nat.add_assoc] at hc hv hi ⊢
    exact ⟨_, _, _, k, hr, hc, hv, hk, hi, rfl⟩
  | .branch pos cond yes no =>
    exact hP.branch_lays pos cond (hP.stmt_lays yes) (hP.stmt_lays no)
  | .whileLoop pos cond body => exact hP.whileLoop_lays pos cond (hP.stmt_lays body)
  | .countLoop pos index count body =>
    exact hP.countLoop_lays pos index count (hP.stmt_lays body)
  | .leave _ =>
    intro vars stop target hidden σ τ code h hslots hw seen honce pre post hstream
    obtain ⟨l, rfl, rfl, rfl⟩ := h
    -- The loop around it tells where its end is, which is further on in the stream.
    obtain ⟨hl, pre', post', hstream', rfl⟩ := hw.stop l rfl
    have hj : L.Has (linkedPlace symbols pre) .jump _ :=
      hP.has_jump _ _ _ l _ _ (by simpa using hstream) nofun rfl hstream' hl
    rw [linkedPlace_jump]
    exact ⟨_, rfl, hj, rfl⟩
  | .giveBack _ value =>
    intro vars stop target hidden σ τ code h hslots hw seen honce pre post hstream
    rw [Stmt.Emits] at h
    rw [Stmt.At]
    split at h
    · rename_i habsent
      obtain ⟨hr, rfl⟩ := h
      rw [if_pos habsent]
      exact hP.false_at hr pre post hstream
    · rename_i habsent
      obtain ⟨c, hc, rfl, rfl⟩ := h
      rw [if_neg habsent]
      have hc := hP.expr_at hslots hw.small hc pre ([on .ret 0] ++ post) (by simp [hstream])
      have hi : L.Has (linkedPlace symbols (pre ++ c)) .ret 0 :=
        hP.has_on _ post (by simp [hstream]) nofun rfl (by decide)
      simp only [linkedPlace_append, linkedPlace_on symbols .ret 0 (by decide),
        ← Nat.add_assoc] at hi ⊢
      exact ⟨_, hc, hi, rfl⟩
  | .define pos name params body => exact hP.define_lays pos name params (hP.stmt_lays body)
  | .perform _ name args =>
    intro vars stop target hidden σ τ code h hslots hw seen honce pre post hstream
    obtain ⟨c, hc, rfl, rfl⟩ := h
    have ha := hP.arguments_at hslots hw.small hc pre _ (by simpa using hstream)
    have hcall : L.CallAt name args.length _ _ := hP.callAt (pre ++ c) _ (by simpa using hstream)
    have hi : L.Has (linkedPlace symbols (pre ++ c ++ [callOf name args.length])) .pop 0 :=
      hP.has_on _ post (by simp [hstream]) nofun rfl (by decide)
    simp only [linkedPlace_append, linkedPlace_cons_cons, linkedPlace_on symbols .pop 0 (by decide),
      ← Nat.add_assoc] at hcall hi ⊢
    exact ⟨_, _, ha, hcall, hi, rfl⟩

/-- The code of statements in sequence stands where the stream has it. -/
theorem Placed.block_lays {L : Layout} {symbols : Symbols} {stream : List Instruction}
    (hP : Placed L symbols stream) (pos : Position) (ss : List (Stmt Cell)) :
    (Stmt.block pos ss).Lays L symbols stream := by
  match ss with
  | [] =>
    intro vars stop target hidden σ τ code h hslots hw seen honce pre post hstream
    obtain ⟨rfl, rfl⟩ := h
    rfl
  | s :: ss =>
    intro vars stop target hidden σ τ code h hslots hw seen honce pre post hstream
    obtain ⟨c, rest, ρ, hs, hr, rfl⟩ := h
    have hsd := hs.declares
    have hfirst := hP.stmt_lays s hs ((Stmt.EmitsAll.declares hr).slots_initial.trans hslots) hw
      seen (fun ho => (honce ho).first) pre (rest ++ post) (by simp [hstream])
    have hrest := hP.block_lays pos ss hr hslots (hw.later hs.labels_le) _
      (fun ho => (honce ho).rest hsd) (pre ++ c) post (by simp [hstream])
    simp only [linkedPlace_append, ← Nat.add_assoc] at hrest ⊢
    exact ⟨_, hfirst, hrest⟩

end

end StackScript
