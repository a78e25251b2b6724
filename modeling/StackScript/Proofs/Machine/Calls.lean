import StackScript.Proofs.Layout.Placement
import StackScript.Proofs.Machine.Rules

/-!
# Calls and the beginnings of functions

A call of a function of the program pushes the missing arguments, and the function begins by
allocating its frame and storing all the arguments into its parameters. `boundFrame` is the frame in
which its body starts.
-/

namespace StackScript

variable {x : Bytes} {params vars : List Bytes} {args : List Cell} {a count i k : Nat}

/-- A frame with arguments stored into parameters in order. -/
def storeArguments (vars : List Bytes) : List Bytes → List Cell → Array Cell → Array Cell
  | x :: params, v :: args, fr =>
    storeArguments vars params args (fr.setIfInBounds ((slotOf vars x).getD 0) v)
  | _, _, fr => fr

/-- The frame in which the body of a function starts: its parameters hold the arguments, and all
else is false. -/
def boundFrame (vars params : List Bytes) (args : List Cell) : Array Cell :=
  storeArguments vars params args (Array.replicate vars.length (some (.boolean false)))

/-- Storing arguments keeps the size of a frame. -/
theorem storeArguments_size (vars params : List Bytes) (args : List Cell) (fr : Array Cell) :
    (storeArguments vars params args fr).size = fr.size := by
  induction params generalizing args fr with
  | nil => rfl
  | cons x params ih =>
    cases args with
    | nil => rfl
    | cons v args => rw [storeArguments, ih, Array.size_setIfInBounds]

/-- A frame has a slot for each variable. -/
theorem boundFrame_size (vars params : List Bytes) (args : List Cell) :
    (boundFrame vars params args).size = vars.length := by
  rw [boundFrame, storeArguments_size, Array.size_replicate]

/-- A slot that no parameter has keeps its contents. -/
theorem storeArguments_getElem?_of_ne (hk : ∀ x ∈ params, (slotOf vars x).getD 0 ≠ k)
    (args : List Cell) (fr : Array Cell) : (storeArguments vars params args fr)[k]? = fr[k]? := by
  induction params generalizing args fr with
  | nil => rfl
  | cons x params ih =>
    cases args with
    | nil => rfl
    | cons v args =>
      rw [storeArguments, ih fun y hy => hk y (List.mem_cons_of_mem x hy),
        Array.getElem?_setIfInBounds_ne (hk x List.mem_cons_self)]

/-- Parameters with slots of their own hold their arguments. -/
theorem storeArguments_getElem? {fr : Array Cell} (hsize : fr.size = vars.length)
    (hslots : ∀ x ∈ params, ∃ k, slotOf vars x = some k) (hnodup : params.Nodup) {v : Cell}
    (hx : params[i]? = some x) (hv : args[i]? = some v) (hk : slotOf vars x = some k) :
    (storeArguments vars params args fr)[k]? = some v := by
  induction params generalizing args fr i with
  | nil => cases hx
  | cons y params ih =>
    cases args with
    | nil => cases hv
    | cons u args =>
      rw [List.nodup_cons] at hnodup
      rw [storeArguments]
      cases i with
      | succ i =>
        exact ih (by rw [Array.size_setIfInBounds, hsize])
          (fun z hz => hslots z (List.mem_cons_of_mem y hz)) hnodup.2 hx hv
      | zero =>
        cases hx
        cases hv
        rw [hk, Option.getD_some, storeArguments_getElem?_of_ne,
          Array.getElem?_setIfInBounds_self_of_lt (hsize ▸ slotOf_lt hk)]
        -- Another parameter in the same slot would have the same name.
        intro z hz he
        obtain ⟨k', hk'⟩ := hslots z (List.mem_cons_of_mem x hz)
        rw [hk', Option.getD_some] at he
        subst he
        have hname := (slotOf_eq_some hk).symm.trans (slotOf_eq_some hk')
        cases hname
        exact hnodup.1 hz

/-- The parameters of a function have its first slots. -/
theorem slotOf_parameter (hinitial : params <+: vars) (hnodup : params.Nodup)
    (hx : params[i]? = some x) : slotOf vars x = some i := by
  obtain ⟨hi, rfl⟩ := List.getElem?_eq_some_iff.mp hx
  refine slotOf_of_initial hinitial ?_
  unfold slotOf
  rw [List.findIdx?_eq_some_iff_getElem]
  refine ⟨hi, by simp, fun j hj => ?_⟩
  simpa using List.pairwise_iff_getElem.mp hnodup j i (Nat.lt_trans hj hi) hi hj

/-- The frame in which a body starts holds the arguments in its first slots. -/
theorem boundFrame_parameter (hinitial : params <+: vars) (hnodup : params.Nodup)
    (hargs : args.length = params.length) (hi : i < params.length) :
    (boundFrame vars params args)[i]? = args[i]? := by
  have hx := List.getElem?_eq_getElem hi
  have hv := List.getElem?_eq_getElem (hargs ▸ hi)
  rw [hv]
  refine storeArguments_getElem? Array.size_replicate (fun y hy => ?_) hnodup hx hv
    (slotOf_parameter hinitial hnodup hx)
  obtain ⟨j, hj, rfl⟩ := List.getElem_of_mem hy
  exact ⟨j, slotOf_parameter hinitial hnodup (List.getElem?_eq_getElem hj)⟩

variable {L : Layout} {hosts : Array HostFunction} {st : List Cell} {fr : Array Cell}
  {cs : List Caller} {w : World} {at? : Nat → Prop}

/-- Missing arguments are pushed. -/
theorem padding_steps
    (hfalse : L.program.constants[Pool.falseIndex]? = some (some (.boolean false))) {n : Nat}
    (h : ∀ j < n, L.Has (a + j) .constant Pool.falseIndex) (hat : ∀ j < n, at? (a + j)) :
    StepsVia L.program hosts (State.Within cs.length at?) n ⟨a, st, fr, cs, w⟩
      ⟨a + n, List.replicate n (some (.boolean false)) ++ st, fr, cs, w⟩ := by
  induction n with
  | zero => rfl
  | succ n ih =>
    have hlast := Nat.lt_succ_self n
    have hfirst := ih (fun j hj => h j (Nat.lt_succ_of_lt hj))
      fun j hj => hat j (Nat.lt_succ_of_lt hj)
    exact hfirst.trans (.single (.inr ⟨rfl, hat n hlast⟩) (next_constant (h n hlast) hfalse))

/-- Arguments are stored into parameters. -/
theorem store_steps
    (h : ∀ i x, params[i]? = some x → ∃ k, slotOf vars x = some k ∧ L.Has (a + i) .store k)
    (hsize : fr.size = vars.length) (hargs : args.length = params.length) :
    StepsVia L.program hosts (State.Within cs.length fun _ => True) params.length
      ⟨a, args ++ st, fr, cs, w⟩
      ⟨a + params.length, st, storeArguments vars params args fr, cs, w⟩ := by
  induction params generalizing args a fr with
  | nil =>
    obtain rfl := List.length_eq_zero_iff.mp hargs
    rfl
  | cons x params ih =>
    cases args with
    | nil => cases hargs
    | cons v args =>
      obtain ⟨k, hk, hi⟩ := h 0 x rfl
      have hnext : L.program.next hosts ⟨a, v :: (args ++ st), fr, cs, w⟩ =
          some (.ok () ⟨a + 1, args ++ st, fr.setIfInBounds k v, cs, w⟩) :=
        next_store hi (hsize ▸ slotOf_lt hk)
      have hlater : ∀ i y, params[i]? = some y →
          ∃ k, slotOf vars y = some k ∧ L.Has (a + 1 + i) .store k := fun i y hy => by
        obtain ⟨k', hk', hi'⟩ := h (i + 1) y hy
        exact ⟨k', hk', by rwa [Nat.add_assoc, Nat.add_comm 1]⟩
      have hsize' : (fr.setIfInBounds k v).size = vars.length := by
        rw [Array.size_setIfInBounds, hsize]
      rw [storeArguments, hk, Option.getD_some, List.length_cons, ← Nat.add_assoc,
        Nat.add_right_comm]
      exact ⟨.inr ⟨rfl, trivial⟩, _, hnext, ih hlater hsize' (Nat.succ.inj hargs)⟩

/-- Keeping a frame adds no caller. -/
theorem keepFrame_length (fr : Array Cell) (cs : List Caller) :
    (keepFrame fr cs).length = cs.length := by
  rcases cs with _ | ⟨⟨r, _ | kept⟩, cs⟩ <;> rfl

/-- A function whose frame is not too large begins. -/
theorem Layout.PrologueAt.steps (h : L.PrologueAt params count vars a)
    (hmax : vars.length ≤ maxCells) (hargs : args.length = params.length) :
    StepsVia L.program hosts (State.Within cs.length fun _ => True) (1 + params.length)
      ⟨a, args ++ st, fr, cs, w⟩
      ⟨a + 1 + params.length, st, boundFrame vars params args, keepFrame fr cs, w⟩ := by
  obtain ⟨-, -, hframe, hstores⟩ := h
  refine .trans (.single (.inr ⟨rfl, trivial⟩) ?_)
    ((store_steps hstores Array.size_replicate hargs).mono fun q hq => ?_)
  · rw [next_frame hframe, if_pos hmax]
  · rwa [keepFrame_length] at hq

/-- A function whose frame is too large fails. -/
theorem Layout.PrologueAt.next_error (h : L.PrologueAt params count vars a)
    (hmax : ¬ vars.length ≤ maxCells) :
    L.program.next hosts ⟨a, st, fr, cs, w⟩ =
      some (.error (.frameTooLarge vars.length) ⟨a, st, fr, cs, w⟩) := by
  obtain ⟨-, -, hframe, -⟩ := h
  rw [next_frame hframe, if_neg hmax]

/-- A call of a function of the program comes to its beginning with all its arguments. -/
theorem Layout.CallAt.steps
    (hfalse : L.program.constants[Pool.falseIndex]? = some (some (.boolean false))) {name : Bytes}
    {d : Function} {b : Nat} (h : L.CallAt name k a b)
    (hd : functionNamed? L.functions name = some d) (hentry : L.entry name < L.program.code.size)
    (args : List Cell) :
    StepsVia L.program hosts (State.Within cs.length fun x => a ≤ x ∧ x < b)
      (d.params.length - k + 1) ⟨a, args ++ st, fr, cs, w⟩
      ⟨L.entry name,
        List.replicate (d.params.length - k) (some (.boolean false)) ++ args ++ st, fr,
        ⟨b, none⟩ :: cs, w⟩ := by
  unfold CallAt at h
  rw [hd] at h
  obtain ⟨-, hpad, hcall, rfl⟩ := h
  rw [List.append_assoc]
  refine (padding_steps hfalse hpad fun j hj => ⟨by omega, by omega⟩).trans ?_
  have hat : a ≤ a + (d.params.length - k) ∧ a + (d.params.length - k) <
      a + (d.params.length - k) + 1 := ⟨Nat.le_add_right .., Nat.lt_succ_self _⟩
  exact .single (.inr ⟨rfl, hat⟩) (next_call hcall hentry)

end StackScript
