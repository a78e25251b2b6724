import StackScript.Proofs.Machine.Related
import StackScript.Proofs.Machine.Steps

/-!
# What runs show

Of a state everything can be seen but the places of instructions. A trace is what a run shows behind
each instruction that does something, and how it ends. Two machines whose places differ have the
same traces if each step of one is matched by a step of the other; instructions that do nothing may
be left out, as long as that does not go on for ever.
-/

namespace StackScript

/-- What can be seen of a state. -/
structure Observation where
  /-- The calculation stack. -/
  stack : List Cell
  /-- The data frame in use. -/
  frame : Array Cell
  /-- The frames of the calls under way. -/
  saved : List (Option (Array Cell))
  /-- Arrays, global variables, input and output. -/
  world : World

/-- What can be seen of a state. -/
def State.observation (s : State) : Observation :=
  ⟨s.stack, s.frame, s.callers.map Caller.frame, s.world⟩

/-- Why a run ended without a result. -/
inductive Cause
  | fault (f : Fault)
  | noResult
  | missingResult
deriving DecidableEq

/-- The end of a run: its result or the cause, and what can be seen then. -/
structure Finish where
  /-- The result or why there is none. -/
  outcome : Except Cause Int64
  /-- What can be seen at the end. -/
  final : Observation

/-- The end of a run whose place has left the program. -/
def Observation.last (o : Observation) : Finish :=
  match o.stack with
  | [] => ⟨.error .noResult, o⟩
  | none :: stack => ⟨.error .missingResult, { o with stack }⟩
  | some v :: stack => ⟨.ok v.toReal.toInt64, { o with stack }⟩

/-- The end that the outcome of a run shows, unless the run was cancelled. -/
def finish? : EStateM.Result RunError State Int64 → Option Finish
  | .ok v s => some ⟨.ok v, s.observation⟩
  | .error (.fault _ _ f) s => some ⟨.error (.fault f), s.observation⟩
  | .error .noResult s => some ⟨.error .noResult, s.observation⟩
  | .error .missingResult s => some ⟨.error .missingResult, s.observation⟩
  | .error .cancelled _ => none

/-- The end of a run is what it shows last. -/
theorem finish?_result (s : State) : finish? (result s) = some s.observation.last := by
  obtain ⟨place, stack, frame, callers, world⟩ := s
  cases stack with
  | nil => rfl
  | cons c stack => cases c <;> rfl

/-- Code and what its instructions do. Beside the state a machine remembers something of type `α`
from one step to the next. -/
structure Machine (α : Type) where
  /-- The instructions. -/
  code : Array Instruction
  /-- What an instruction does. -/
  exec : Instruction → α → Exec α

/-- What a machine does next. -/
inductive Move (α : Type)
  /-- It ends. -/
  | stop (e : Finish)
  /-- It goes on behind an instruction that does nothing. -/
  | pass (c : State × α)
  /-- It goes on behind an instruction that does something. -/
  | act (c : State × α)

namespace Machine

variable {α β : Type}

/-- What a machine does next. -/
def move (m : Machine α) (c : State × α) : Move α :=
  match m.code[c.1.place]? with
  | none => .stop c.1.observation.last
  | some i =>
    match m.exec i c.2 c.1 with
    | .ok a s => if i.op = .noop then .pass (s, a) else .act (s, a)
    | .error f s => .stop ⟨.error (.fault f), s.observation⟩

/-- What a machine shows within a number of steps, and its end if it comes to it. -/
def trace (m : Machine α) : Nat → State × α → List Observation × Option Finish
  | 0, _ => ([], none)
  | n + 1, c =>
    match m.move c with
    | .stop e => ([], some e)
    | .pass c' => m.trace n c'
    | .act c' => (c'.1.observation :: (m.trace n c').1, (m.trace n c').2)

/-- Two machines show the same: whatever one shows within some steps, so does the other. -/
def SameTraces (m : Machine α) (c : State × α) (m' : Machine β) (d : State × β) : Prop :=
  ∀ shown, (∃ n, m.trace n c = shown) ↔ ∃ n, m'.trace n d = shown

/-- Showing the same as a machine that shows the same as a third. -/
theorem SameTraces.trans {γ : Type} {m : Machine α} {c : State × α} {m' : Machine β}
    {d : State × β} {m'' : Machine γ} {e : State × γ} (h : SameTraces m c m' d)
    (h' : SameTraces m' d m'' e) : SameTraces m c m'' e := fun shown => (h shown).trans (h' shown)

/-- Machines that show the same end alike. -/
theorem SameTraces.ends {m : Machine α} {c : State × α} {m' : Machine β} {d : State × β}
    (h : SameTraces m c m' d) (e : Finish) :
    (∃ n, (m.trace n c).2 = some e) ↔ ∃ n, (m'.trace n d).2 = some e := by
  constructor
  · rintro ⟨n, hn⟩
    obtain ⟨n', hn'⟩ := (h (m.trace n c)).mp ⟨n, rfl⟩
    exact ⟨n', by rw [hn', hn]⟩
  · rintro ⟨n, hn⟩
    obtain ⟨n', hn'⟩ := (h (m'.trace n d)).mpr ⟨n, rfl⟩
    exact ⟨n', by rw [hn', hn]⟩

/-- How the next steps of two machines in related states match. -/
inductive Matched (m : Machine α) (m' : Machine β) (rel : State × α → State × β → Prop)
    (rank : Nat → Nat) (c : State × α) (d : State × β) : Prop
  /-- Both have come to the end of their code. -/
  | halted (hc : m.code[c.1.place]? = none) (hd : m'.code[d.1.place]? = none)
    (h : c.1.observation = d.1.observation)
  /-- The first passes over an instruction that the second does not have. -/
  | skipped {i : Instruction} (hi : m.code[c.1.place]? = some i) (hnoop : i.op = .noop)
    {a : α} {s : State} (h : m.exec i c.2 c.1 = .ok a s) (hrel : rel (s, a) d)
    (hrank : rank s.place < rank c.1.place)
  /-- Both execute an instruction. -/
  | both {i j : Instruction} (hi : m.code[c.1.place]? = some i)
    (hj : m'.code[d.1.place]? = some j) (hnoop : i.op = .noop ↔ j.op = .noop)
    (h : ResultsRelate (fun a s b t => rel (s, a) (t, b) ∧ s.observation = t.observation)
      (fun s t => s.observation = t.observation) (m.exec i c.2 c.1) (m'.exec j d.2 d.1))

/-- What matched steps are, seen as moves. -/
theorem Matched.moves {m : Machine α} {m' : Machine β} {rel : State × α → State × β → Prop}
    {rank : Nat → Nat} {c : State × α} {d : State × β} (h : Matched m m' rel rank c d) :
    (∃ e, m.move c = .stop e ∧ m'.move d = .stop e) ∨
      (∃ c', m.move c = .pass c' ∧ rel c' d ∧ rank c'.1.place < rank c.1.place) ∨
      (∃ c' d', m.move c = .pass c' ∧ m'.move d = .pass d' ∧ rel c' d') ∨
      ∃ c' d', m.move c = .act c' ∧ m'.move d = .act d' ∧ rel c' d' ∧
        c'.1.observation = d'.1.observation := by
  cases h with
  | halted hc hd h =>
    refine .inl ⟨c.1.observation.last, ?_, ?_⟩
    · rw [move, hc]
    · rw [move, hd, h]
  | skipped hi hnoop h hrel hrank =>
    refine .inr (.inl ⟨_, ?_, hrel, hrank⟩)
    rw [move, hi]
    simp only [h, hnoop, if_true]
  | @both i j hi hj hnoop h =>
    rw [move, move, hi, hj]
    simp only
    cases hx : m.exec i c.2 c.1 with
    | ok a s =>
      cases hy : m'.exec j d.2 d.1 with
      | ok b t =>
        rw [hx, hy] at h
        obtain ⟨hrel, hobs⟩ := h
        -- A marker is passed by both or by neither.
        by_cases hop : i.op = .noop
        · refine .inr (.inr (.inl ⟨(s, a), (t, b), ?_, ?_, hrel⟩))
          · simp only [if_pos hop]
          · simp only [if_pos (hnoop.mp hop)]
        · refine .inr (.inr (.inr ⟨(s, a), (t, b), ?_, ?_, hrel, hobs⟩))
          · simp only [if_neg hop]
          · simp only [if_neg (mt hnoop.mpr hop)]
      | error f t =>
        rw [hx, hy] at h
        exact h.elim
    | error f s =>
      cases hy : m'.exec j d.2 d.1 with
      | ok b t =>
        rw [hx, hy] at h
        exact h.elim
      | error f' t =>
        rw [hx, hy] at h
        obtain ⟨rfl, hobs⟩ := h
        exact .inl ⟨_, rfl, by simp only [hobs]⟩

section Simulation

variable {m : Machine α} {m' : Machine β} {rel : State × α → State × β → Prop} {rank : Nat → Nat}
  (hmatch : ∀ c d, rel c d → Matched m m' rel rank c d)
include hmatch

/-- What the first of two machines with matching steps shows, the second shows. -/
theorem exists_trace_right (n : Nat) {c : State × α} {d : State × β} (h : rel c d) :
    ∃ n', m'.trace n' d = m.trace n c := by
  induction n generalizing c d with
  | zero => exact ⟨0, rfl⟩
  | succ n ih =>
    rcases (hmatch c d h).moves with ⟨e, hc, hd⟩ | ⟨c', hc, hrel, -⟩ | ⟨c', d', hc, hd, hrel⟩ |
      ⟨c', d', hc, hd, hrel, hobs⟩
    · exact ⟨1, by simp only [trace, hc, hd]⟩
    · obtain ⟨n', hn'⟩ := ih hrel
      exact ⟨n', by simp only [trace, hc, hn']⟩
    · obtain ⟨n', hn'⟩ := ih hrel
      exact ⟨n' + 1, by simp only [trace, hc, hd, hn']⟩
    · obtain ⟨n', hn'⟩ := ih hrel
      exact ⟨n' + 1, by simp only [trace, hc, hd, hn', hobs]⟩

/-- What the second of two machines with matching steps shows, the first shows. -/
theorem exists_trace_left (n : Nat) {c : State × α} {d : State × β} (h : rel c d) :
    ∃ n', m.trace n' c = m'.trace n d := by
  induction n generalizing c d with
  | zero => exact ⟨0, rfl⟩
  | succ n ih =>
    -- The first machine may have to pass over instructions first; each time its rank falls.
    induction hr : rank c.1.place using Nat.strongRecOn generalizing c with
    | ind r ihr =>
      rcases (hmatch c d h).moves with ⟨e, hc, hd⟩ | ⟨c', hc, hrel, hrank⟩ |
        ⟨c', d', hc, hd, hrel⟩ | ⟨c', d', hc, hd, hrel, hobs⟩
      · exact ⟨1, by simp only [trace, hc, hd]⟩
      · obtain ⟨n', hn'⟩ := ihr _ (hr ▸ hrank) hrel rfl
        exact ⟨n' + 1, by rw [← hn', trace, hc]⟩
      · obtain ⟨n', hn'⟩ := ih hrel
        exact ⟨n' + 1, by simp only [trace, hc, hd, hn']⟩
      · obtain ⟨n', hn'⟩ := ih hrel
        exact ⟨n' + 1, by simp only [trace, hc, hd, hn', hobs]⟩

/-- Machines with matching steps show the same. -/
theorem sameTraces_of_matched {c : State × α} {d : State × β} (h : rel c d) :
    SameTraces m c m' d := by
  intro shown
  constructor
  · rintro ⟨n, rfl⟩
    exact exists_trace_right hmatch n h
  · rintro ⟨n, rfl⟩
    exact exists_trace_left hmatch n h

end Simulation

end Machine

/-- The machine that runs a program. -/
def Program.machine (p : Program) (hosts : Array HostFunction) : Machine Unit where
  code := p.code
  exec := fun i _ => step p hosts i

section Runs

variable {p : Program} {hosts : Array HostFunction}

/-- A trace that ends does so as a run that is granted as many steps. -/
theorem Program.finish?_runWithin {n : Nat} {s : State} {e : Finish}
    (h : ((p.machine hosts).trace n (s, ())).2 = some e) {fuel : Nat} (hfuel : n ≤ fuel) :
    finish? (runWithin p hosts fuel s) = some e := by
  induction n generalizing s fuel with
  | zero => cases h
  | succ n ih =>
    obtain ⟨fuel, rfl⟩ : ∃ k, fuel = k + 1 := ⟨fuel - 1, by omega⟩
    have hfuel : n ≤ fuel := by omega
    rw [runWithin]
    unfold Machine.trace Machine.move Program.machine at h
    cases hi : p.code[s.place]? with
    | none =>
      simp only [hi] at h ⊢
      rw [finish?_result, h]
    | some i =>
      simp only [hi] at h ⊢
      cases hstep : step p hosts i s with
      | ok u s' =>
        by_cases hop : i.op = .noop <;> simp only [hstep, hop] at h ⊢ <;> exact ih h hfuel
      | error f s' =>
        simp only [hstep] at h ⊢
        exact h

/-- A run that ends does so as a trace of one step more. -/
theorem Program.trace_of_runWithin {fuel : Nat} {s : State} {e : Finish}
    (h : finish? (runWithin p hosts fuel s) = some e) :
    ((p.machine hosts).trace (fuel + 1) (s, ())).2 = some e := by
  induction fuel generalizing s with
  | zero =>
    rw [runWithin] at h
    unfold Machine.trace Machine.move Program.machine
    cases hi : p.code[s.place]? with
    | none =>
      simp only [hi] at h ⊢
      rw [← h, finish?_result]
    | some i =>
      simp only [hi] at h
      cases h
  | succ fuel ih =>
    rw [runWithin] at h
    unfold Machine.trace Machine.move Program.machine
    cases hi : p.code[s.place]? with
    | none =>
      simp only [hi] at h ⊢
      rw [← h, finish?_result]
    | some i =>
      simp only [hi] at h ⊢
      cases hstep : step p hosts i s with
      | ok u s' =>
        by_cases hop : i.op = .noop <;> simp only [hstep, hop] at h ⊢ <;> exact ih h
      | error f s' =>
        simp only [hstep] at h ⊢
        exact h

/-- The ends of the traces of a program are the ends of its runs. -/
theorem Program.trace_ends_iff (world : World) (e : Finish) :
    (∃ n, ((p.machine hosts).trace n (State.start p.code.size world, ())).2 = some e) ↔
      ∃ blocks, finish? (run p hosts blocks world) = some e := by
  constructor
  · rintro ⟨n, hn⟩
    have hfuel : n ≤ n * blockSize := Nat.le_mul_of_pos_right n (by decide)
    exact ⟨n, Program.finish?_runWithin hn hfuel⟩
  · rintro ⟨blocks, hblocks⟩
    exact ⟨blocks * blockSize + 1, Program.trace_of_runWithin hblocks⟩

end Runs

end StackScript
