import StackScript.Proofs.Machine.Activations

/-!
# The frame in use

A function begins with the allocation of its frame and ends with a return. So execution goes on from
a place in the code of a function to another place in it, by going on behind an instruction or by a
jump that stays there, until the function returns and the frame of its caller is in use again. The
frame in use therefore has the size that the function asked for whose code is executed
(`Compiled.frame_size`).
-/

namespace StackScript

variable {L : Layout} {imports : List Import} {b n : Nat} {t : Tree Cell} {w : World}

/-! ## Where functions begin -/

namespace Layout

/-- Where a function begins between two places, there is the code of a function of a tree. -/
abbrev Founded (L : Layout) (a b : Nat) : Prop :=
  L.Each (fun e o => o.op = .frame →
    ∃ d vars stop, L.FunctionAt d vars stop e (L.program.functionEnd e)) a b

variable {L : Layout} {a b m n : Nat}

/-- No function begins in plain code. -/
theorem Plain.founded (h : L.Plain a b) : L.Founded a b :=
  h.imp fun _ _ ho hframe => absurd hframe ho.frame

/-- No function begins at another instruction. -/
theorem Has.founded {op : Opcode} (h : L.Has a op n) (hop : op ≠ .frame) : L.Founded a (a + 1) :=
  h.each fun _ ho _ hframe => absurd (ho.symm.trans hframe) hop

/-- That functions are those of a tree goes over from the parts of code to the whole. -/
theorem founded_composes (L : Layout) : L.Composes L.Founded where
  plain := Plain.founded
  single := Has.founded
  append := Each.append
  define {a m b d vars stop} hi hprologue hbody hfalse h := by
    -- Behind the jump around it the function begins; any other one is declared in its body.
    have hfirst : L.Founded (a + 1) (a + 2) := by
      refine hprologue.2.2.1.each fun o _ _ _ => ?_
      rw [hi.functionEnd]
      exact ⟨d, vars, stop, m, hprologue, hbody, hfalse⟩
    have hinner : L.Founded (a + 2) b :=
      hprologue.plain.founded.append (h.append hfalse.plain.founded)
    exact (hi.founded (by decide)).append (hfirst.append hinner)

end Layout

/-- Where a function begins in the code of statements, there is one of a tree. -/
theorem Stmt.AllAt.founded {vars : List Bytes} {stop : Option Nat} {hidden : List Nat}
    {ss : List (Stmt Cell)} {a b : Nat} (h : Stmt.AllAt L ss vars stop hidden a b) :
    L.Founded a b := h.composed L.founded_composes

/-! ## Going on inside a function -/

namespace Program

/-- Every function ends with a return. -/
def Returning (p : Program) : Prop :=
  ∀ e, p.IsEntry e → e < p.functionEnd e ∧
    ∃ i, p.code[p.functionEnd e - 1]? = some i ∧ i.op = .ret

variable {p : Program} {e a : Nat} {i : Instruction}

/-- The beginning of a function is in its own code. -/
theorem Returning.codeOf_entry (h : p.Returning) (he : p.IsEntry e) : p.CodeOf e e :=
  ⟨⟨he, Nat.le_refl e, (h e he).1⟩, fun _ h' => h'.2.1⟩

/-- No function reaches behind the program. -/
theorem CodeOf.lt_size (h : p.CodeOf e a) (hreturn : p.Returning) : a < p.code.size := by
  obtain ⟨⟨he, -, hlt⟩, -⟩ := h
  obtain ⟨-, i, hi, -⟩ := hreturn e he
  have hlast := (Array.getElem?_eq_some_iff.mp hi).1
  omega

/-- Behind an instruction that may go on there, short of the end of its function, is a place of the
same function. -/
theorem CodeOf.succ (h : p.CodeOf e a) (hp : p.Guarded) (hi : p.code[a]? = some i)
    (hop : i.op ≠ .jump) (hlt : a + 1 < p.functionEnd e) : p.CodeOf e (a + 1) := by
  obtain ⟨⟨he, hle, -⟩, hinner⟩ := h
  refine ⟨⟨he, Nat.le_succ_of_le hle, hlt⟩, ?_⟩
  rintro e' ⟨he', hle', hlt'⟩
  -- A function that begins right there would have a jump in front of it.
  rcases Nat.eq_or_lt_of_le hle' with rfl | hle'
  · exact absurd he' ((hp.code a i hi).behind hop)
  · exact hinner e' ⟨he', Nat.le_of_lt_succ hle', Nat.lt_of_succ_lt hlt'⟩

/-- An instruction that may go on behind it is in the function of the place there. -/
theorem CodeOf.of_succ (h : p.CodeOf e (a + 1)) (hp : p.Guarded) (hreturn : p.Returning)
    (hi : p.code[a]? = some i) (hjump : i.op ≠ .jump) (hret : i.op ≠ .ret) : p.CodeOf e a := by
  obtain ⟨⟨he, hle, hlt⟩, hinner⟩ := h
  have hea : e ≤ a := by
    rcases Nat.eq_or_lt_of_le hle with rfl | hle
    · exact absurd he ((hp.code a i hi).behind hjump)
    · exact Nat.le_of_lt_succ hle
  refine ⟨⟨he, hea, Nat.lt_of_succ_lt hlt⟩, ?_⟩
  rintro e' ⟨he', hle', hlt'⟩
  -- A function that ends right there would have a return at its end.
  rcases Nat.eq_or_lt_of_le (Nat.succ_le_of_lt hlt') with hend | hend
  · obtain ⟨-, o, ho, hop⟩ := hreturn e' he'
    rw [← hend, Nat.succ_sub_one, hi] at ho
    cases ho
    exact absurd hop hret
  · exact hinner e' ⟨he', Nat.le_succ_of_le hle', hend⟩

end Program

/-- The code of a function ends with a return. -/
theorem Layout.FunctionAt.returning {d : Function} {vars : List Bytes} {stop : Option Nat} {a : Nat}
    (h : L.FunctionAt d vars stop a b) :
    a < b ∧ ∃ i, L.program.code[b - 1]? = some i ∧ i.op = .ret := by
  obtain ⟨m, -, hbody, -, ⟨i, hi, hop, -⟩, rfl⟩ := h
  have hle := hbody.le
  exact ⟨by omega, i, hi, hop⟩

/-- The functions of a compiled program, and the statements outside all of them, end with a
return. -/
theorem Compiled.returning (h : Compiled t imports L) : L.program.Returning := by
  obtain ⟨vars, m, hprologue, hbody, hfalse⟩ := h.program
  intro e he
  rcases Nat.eq_zero_or_pos e with rfl | hpos
  · have hend : L.program.functionEnd 0 = L.program.code.size := rfl
    obtain ⟨-, ⟨i, hi, hop, -⟩, hm⟩ := hfalse
    rw [hend, hm]
    exact ⟨Nat.succ_pos _, i, hi, hop⟩
  · have hall : L.Founded 1 L.program.code.size := hbody.founded.append hfalse.plain.founded
    obtain ⟨i, hi, hop⟩ := he
    have hlt := (Array.getElem?_eq_some_iff.mp hi).1
    obtain ⟨d, vars, stop, hd⟩ := hall.all e i hpos hlt hi hop
    exact hd.returning

/-! ## Sizes of frames -/

/-- A number of slots is what the function asks for whose code has a place. -/
def Program.Fits (p : Program) (size place : Nat) : Prop :=
  ∀ e i, p.CodeOf e place → p.code[e]? = some i → size = i.operand.toNat

/-- All frames have the sizes that the functions ask for which go on with them. The callee of the
latest call, which has no frame yet, uses that of its caller. -/
structure State.Framed (p : Program) (s : State) : Prop where
  own : ¬ p.IsEntry s.place → p.Fits s.frame.size s.place
  lent : ∀ resume cs, s.callers = ⟨resume, none⟩ :: cs → p.Fits s.frame.size resume
  kept : ∀ c ∈ s.callers, ∀ fr, c.frame = some fr → p.Fits fr.size c.resume

section

variable {p : Program} {hosts : Array HostFunction} {s s' : State} {i : Instruction} {size a : Nat}

/-- What fits an instruction that may go on behind it fits there. -/
theorem Program.Fits.succ (h : p.Fits size a) (hp : p.Guarded) (hreturn : p.Returning)
    (hi : p.code[a]? = some i) (hjump : i.op ≠ .jump) (hret : i.op ≠ .ret) :
    p.Fits size (a + 1) :=
  fun e o hcode ho => h e o (hcode.of_succ hp hreturn hi hjump hret) ho

/-- What fits an instruction fits where it goes on, if jumps stay in their functions. -/
theorem Program.Fits.target (h : p.Fits size a) (hp : p.Guarded) (hreturn : p.Returning)
    (hstay : p.JumpsStay) (hi : p.code[a]? = some i) (hret : i.op ≠ .ret)
    (hb : i.op.Target i.operand.toNat a b) : p.Fits size b := by
  rcases hb with ⟨hjump, rfl⟩ | ⟨hbranch, rfl⟩
  · exact h.succ hp hreturn hi hjump hret
  · obtain ⟨e, ha, hb⟩ := hstay a i hi hbranch
    intro e' o hcode ho
    obtain rfl := hb.unique hcode
    exact h e o ha ho

/-- An allocated frame fits the function that begins with it. -/
theorem Program.Returning.fits_entry (hreturn : p.Returning) (hp : p.Guarded)
    (hi : p.code[a]? = some i) (hop : i.op = .frame) : p.Fits i.operand.toNat (a + 1) := by
  intro e o hcode ho
  have ha := hcode.of_succ hp hreturn hi (by rw [hop]; decide) (by rw [hop]; decide)
  obtain rfl := ha.unique (hreturn.codeOf_entry ⟨i, hi, hop⟩)
  rw [hi] at ho
  cases ho
  rfl

/-- The size of a frame that is allocated. -/
theorem frame_size_of_next (h : p.next hosts s = some (.ok () s')) (hi : p.code[s.place]? = some i)
    (hop : i.op = .frame) : s'.frame.size = i.operand.toNat := by
  obtain ⟨o, ho, hstep⟩ := Option.map_eq_some_iff.mp h
  rw [hi] at ho
  cases ho
  obtain ⟨place, stack, frame, callers, world⟩ := s
  rw [step, hop] at hstep
  simp only at hstep
  split at hstep
  · cases hstep
  · rcases callers with _ | ⟨⟨resume, _ | kept⟩, callers⟩ <;> cases hstep <;>
      exact Array.size_replicate

/-- Callers that are kept have lent their frame to nobody. -/
theorem State.Framed.of_kept (hkept : ∀ c ∈ s.callers, c.Kept p)
    (hown : p.Fits s.frame.size s.place)
    (hfits : ∀ c ∈ s.callers, ∀ fr, c.frame = some fr → p.Fits fr.size c.resume) :
    s.Framed p where
  own _ := hown
  lent resume cs hcs := by
    obtain ⟨fr, hfr⟩ := (hkept ⟨resume, none⟩ (by rw [hcs]; exact List.mem_cons_self)).frame
    cases hfr
  kept := hfits

/-- A step keeps the frames of the sizes that functions ask for. -/
theorem State.Framed.next (hp : p.Guarded) (hreturn : p.Returning) (hstay : p.JumpsStay)
    (hs : s.Settled p) (hframed : s.Framed p) (h : p.next hosts s = some (.ok () s')) :
    s'.Framed p := by
  have hs' := hs.next hp h
  obtain ⟨i, hi, hmoves⟩ := Program.next_moves h
  -- An instruction other than a frame does not stand at the beginning of a function.
  have hinside : i.op ≠ .frame → ¬ p.IsEntry s.place := by
    rintro hop ⟨o, ho, hframe⟩
    rw [hi] at ho
    cases ho
    exact hop hframe
  cases hmoves with
  | enter hop hplace hcallers =>
    have hown : p.Fits s'.frame.size s'.place := by
      rw [frame_size_of_next h hi hop, hplace]
      exact hreturn.fits_entry hp hi hop
    cases hs with
    | inside hnot => exact absurd ⟨i, hi, hop⟩ hnot
    | entering _ resume cs hcs hresume hkept =>
      rw [hcs] at hcallers
      -- The caller keeps the frame that was in use, which it had lent.
      refine .of_kept ?_ hown ?_
      · rw [hcallers]
        exact List.forall_mem_cons.mpr ⟨⟨⟨s.frame, rfl⟩, hresume⟩, hkept⟩
      · rw [hcallers]
        refine List.forall_mem_cons.mpr ⟨?_, fun c hc => ?_⟩
        · rintro fr ⟨⟩
          exact hframed.lent resume cs hcs
        · exact hframed.kept c (by rw [hcs]; exact List.mem_cons_of_mem _ hc)
  | store v hop _ _ hplace hframe hcallers =>
    have hne : i.op ≠ .frame := by rw [hop]; decide
    refine .of_kept (hcallers ▸ hs.callers_kept hi hne) ?_ (hcallers ▸ hframed.kept)
    rw [hframe, hplace, Array.size_setIfInBounds]
    exact (hframed.own (hinside hne)).succ hp hreturn hi (by rw [hop]; decide) (by rw [hop]; decide)
  | call hop hplace hframe hcallers =>
    have hresume : p.Fits s.frame.size (s.place + 1) :=
      (hframed.own (hinside (by rw [hop]; decide))).succ hp hreturn hi (by rw [hop]; decide)
        (by rw [hop]; decide)
    refine ⟨fun hnot => ?_, ?_, ?_⟩
    · exact absurd (hplace ▸ (hp.code _ i hi).call hop) hnot
    · rw [hcallers, hframe]
      rintro resume cs ⟨⟩
      exact hresume
    · rw [hcallers]
      refine List.forall_mem_cons.mpr ⟨?_, hframed.kept⟩
      rintro fr ⟨⟩
  | ret c hop hcallers hplace hframe =>
    have hkept := hs.callers_kept hi (by rw [hop]; decide)
    have hfits := hframed.kept
    rw [hcallers, List.forall_mem_cons] at hkept hfits
    obtain ⟨fr, hfr⟩ := hkept.1.frame
    refine .of_kept hkept.2 ?_ hfits.2
    rw [hframe, hplace, hfr]
    exact hfits.1 fr hfr
  | other hop hframe hcallers hplace =>
    have hne : i.op ≠ .frame := fun hframe => hop (by simp [hframe])
    have hret : i.op ≠ .ret := fun hret => hop (by simp [hret])
    refine .of_kept (hcallers ▸ hs.callers_kept hi hne) ?_ (hcallers ▸ hframed.kept)
    rw [hframe]
    exact (hframed.own (hinside hne)).target hp hreturn hstay hi hret hplace

/-- A state is framed after the first step. -/
theorem State.Framed.start (hp : p.Guarded) (hreturn : p.Returning)
    (h : p.next hosts (State.start p.code.size w) = some (.ok () s)) : s.Framed p := by
  obtain ⟨o, ho, hframe, hplace, hcallers⟩ := hp.next_start h
  refine ⟨fun _ => ?_, ?_, ?_⟩
  · rw [frame_size_of_next h ho hframe, hplace]
    exact hreturn.fits_entry hp ho hframe
  · rw [hcallers]
    rintro resume cs ⟨⟩
  · rw [hcallers]
    refine List.forall_mem_singleton.mpr fun fr _ e i hcode => ?_
    exact absurd (hcode.lt_size hreturn) (Nat.lt_irrefl _)

/-- Steps keep the frames of the sizes that functions ask for. -/
theorem State.Framed.steps (hp : p.Guarded) (hreturn : p.Returning) (hstay : p.JumpsStay)
    (hs : s.Settled p) (hframed : s.Framed p) (h : Steps p hosts n s s') : s'.Framed p := by
  induction n generalizing s with
  | zero =>
    cases h
    exact hframed
  | succ n ih =>
    obtain ⟨m, hm, hrest⟩ := h
    exact ih (hs.next hp hm) (hframed.next hp hreturn hstay hs hm) hrest

end

/-- The frame in use, in every state that a compiled program reaches inside a function, has the size
that the function asks for. -/
theorem Compiled.frame_size (hL : Compiled t imports L) (hleaves : t.leavesLoops = true)
    {hosts : Array HostFunction} {s : State}
    (h : Steps L.program hosts n (State.start L.program.code.size w) s)
    (hs : ¬ L.program.IsEntry s.place) {e size : Nat} (hcode : L.program.CodeOf e s.place)
    (hframe : L.Has e .frame size) : s.frame.size = size := by
  obtain ⟨i, hi, -, rfl⟩ := hframe
  have hp := hL.guarded
  cases n with
  | zero =>
    cases h
    exact absurd hp.start hs
  | succ n =>
    obtain ⟨m, hm, hrest⟩ := h
    have hframed := (State.Framed.start hp hL.returning hm).steps hp hL.returning
      (hL.jumpsStay_iff.mpr hleaves) (.start hp hm) hrest
    exact hframed.own hs e i hcode hi

end StackScript
