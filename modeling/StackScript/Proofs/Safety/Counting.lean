import StackScript.Proofs.Machine.Regions
import StackScript.Proofs.Safety.Code

/-!
# Counting loops are repeated as often as they say

In a run of a counting loop whose count is always the same integer, and whose body always comes to
its end, the body is entered once for each index below the count, in order, and the loop ends with
the count in its index, or with zero if the count is negative. One repetition is a test of the
index, the body, which leaves the index alone, and its increment; the induction is on the number of
repetitions that remain.
-/

namespace StackScript

/-! ## Integers as indices -/

/-- An index up to the count is less than it unless all repetitions are done. -/
theorem ofNat_lt_iff {n : Int64} {i : Nat} (h : i ≤ n.toInt.toNat) :
    Int64.ofNat i < n ↔ i < n.toInt.toNat := by
  have hmax := n.toInt_lt
  rw [Int64.lt_iff_toInt_lt, Int64.toInt_ofNat_of_lt (by omega)]
  omega

/-- The number of repetitions is the count, unless that is negative. -/
theorem ofNat_toNat_eq_max (n : Int64) : Int64.ofNat n.toInt.toNat = max n 0 := by
  have hmax := n.toInt_lt
  apply Int64.toInt_inj.mp
  rw [Int64.toInt_ofNat_of_lt (by omega), show max n 0 = if n ≤ 0 then 0 else n from rfl]
  split <;> rename_i hle <;> rw [Int64.le_iff_toInt_le, Int64.toInt_zero] at hle
  · rw [Int64.toInt_zero]
    omega
  · omega

section

variable {L : Layout} {hosts : Array HostFunction} {a k : Nat} {st : List Cell} {fr : Array Cell}
  {cs : List Caller} {w : World}

/-- Integers are compared as numbers. -/
theorem next_lt_integers {x y : Int64} (h : L.Has a .lt k) :
    L.program.next hosts ⟨a, some (.integer y) :: some (.integer x) :: st, fr, cs, w⟩ =
      some (.ok () ⟨a + 1, some (.boolean (x < y)) :: st, fr, cs, w⟩) := by
  have hdoes : Does L.program hosts
      ⟨a, some (.integer y) :: some (.integer x) :: st, fr, cs, w⟩ _ := does_operator .lt rfl h
  exact hdoes

/-- Integers are added as numbers of 64 bits. -/
theorem next_add_integers {x y : Int64} (h : L.Has a .add k) :
    L.program.next hosts ⟨a, some (.integer y) :: some (.integer x) :: st, fr, cs, w⟩ =
      some (.ok () ⟨a + 1, some (.integer (x + y)) :: st, fr, cs, w⟩) := by
  have hdoes : Does L.program hosts
      ⟨a, some (.integer y) :: some (.integer x) :: st, fr, cs, w⟩ _ := does_operator .add rfl h
  exact hdoes

/-- A test of a truth value. -/
theorem next_jumpUnless_boolean {x : Bool} (h : L.Has a .jumpUnless k)
    (hk : k < L.program.code.size) :
    L.program.next hosts ⟨a, some (.boolean x) :: st, fr, cs, w⟩ =
      some (.ok () ⟨if x then a + 1 else k, st, fr, cs, w⟩) := by
  have hdoes : Does L.program hosts ⟨a, some (.boolean x) :: st, fr, cs, w⟩ _ :=
    does_jumpUnless h hk
  exact hdoes

end

/-! ## Runs of a loop -/

namespace CountLoop.Code

variable {L : Layout} {l : CountLoop}

/-- A run that begins in `s` comes to `r`, and not to the end of the loop before. -/
def During (c : l.Code L) (hosts : Array HostFunction) (s r : State) : Prop :=
  ∃ k, StepsVia L.program hosts (fun q => ¬ q.IsAt (c.back + 5) s.callers.length) k s r

/-- A program comes to a counting loop. Every time that the loop evaluates its count, this pushes
the integer `n` and changes nothing else, and every time that it enters its body, the body comes to
its end. -/
structure Runs (c : l.Code L) (hosts : Array HostFunction) (n : Int64) (s : State) : Prop where
  reached : ∃ w k, Steps L.program hosts k (State.start L.program.code.size w) s
  place : s.place = c.start
  count : ∀ r, c.During hosts s r → r.IsAt (c.start + 3) s.callers.length →
    ∃ k, StepsVia L.program hosts (fun q => ¬ q.IsAt c.less s.callers.length) k r
      ⟨c.less, some (.integer n) :: r.stack, r.frame, r.callers, r.world⟩
  body : ∀ q r, c.During hosts s q → q.IsAt (c.less + 1) s.callers.length →
    L.program.next hosts q = some (.ok () r) → r.place = c.less + 2 →
    Reaches L.program hosts r (State.IsAt c.back s.callers.length)

/-- A run comes from a state to the first in which the loop has ended, in the activation that has so
many callers; `entries` are the states in which it enters the body, in order. -/
inductive Passes (c : l.Code L) (hosts : Array HostFunction) (depth : Nat) :
    State → List State → State → Prop
  /-- The loop has ended. -/
  | done {s : State} (ended : s.IsAt (c.back + 5) depth) : Passes c hosts depth s [] s
  /-- The test is passed, and the body is entered. -/
  | enter {s m s' : State} {entries : List State} (test : s.IsAt (c.less + 1) depth)
    (next : L.program.next hosts s = some (.ok () m)) (body : m.place = c.less + 2)
    (rest : Passes c hosts depth m entries s') : Passes c hosts depth s (m :: entries) s'
  /-- Anything else is done before the loop ends. -/
  | pass {s m s' : State} {entries : List State} (goes : ¬ s.IsAt (c.back + 5) depth)
    (next : L.program.next hosts s = some (.ok () m))
    (other : ¬ (s.IsAt (c.less + 1) depth ∧ m.place = c.less + 2))
    (rest : Passes c hosts depth m entries s') : Passes c hosts depth s entries s'

/-- A state is neither at the test of the loop nor at its end. -/
def Quiet (c : l.Code L) (depth : Nat) (q : State) : Prop :=
  ¬ q.IsAt (c.back + 5) depth ∧ ¬ q.IsAt (c.less + 1) depth

section

variable {c : l.Code L} {hosts : Array HostFunction} {depth k : Nat} {s r s' : State}
  {entries : List State}

/-- Other places are quiet. -/
theorem Quiet.of_place (h : s.place ≠ c.back + 5 ∧ s.place ≠ c.less + 1) : c.Quiet depth s :=
  ⟨fun hend => h.1 hend.1, fun htest => h.2 htest.1⟩

/-- A loop goes on by a step. -/
theorem During.next (h : c.During hosts s r) (hplace : r.place ≠ c.back + 5)
    (hnext : L.program.next hosts r = some (.ok () s')) : c.During hosts s s' := by
  obtain ⟨j, hj⟩ := h
  exact ⟨j + 1, hj.trans (.single (fun hend => hplace hend.1) hnext)⟩

/-- A loop goes on by quiet steps. -/
theorem During.trans (h : c.During hosts s r)
    (h' : StepsVia L.program hosts (c.Quiet s.callers.length) k r s') : c.During hosts s s' := by
  obtain ⟨j, hj⟩ := h
  exact ⟨j + k, hj.trans (h'.mono fun _ hq => hq.1)⟩

/-- Quiet steps enter nothing. -/
theorem Passes.of_quiet (h : StepsVia L.program hosts (c.Quiet depth) k s r)
    (hrest : c.Passes hosts depth r entries s') : c.Passes hosts depth s entries s' := by
  induction k generalizing s with
  | zero =>
    cases h
    exact hrest
  | succ k ih =>
    obtain ⟨hquiet, m, hm, hsteps⟩ := h
    exact .pass hquiet.1 hm (fun hboth => hquiet.2 hboth.1) (ih hsteps)

end

/-! ## One repetition -/

/-- A state in which a run of the loop tests its index next. -/
structure Testing (c : l.Code L) (hosts : Array HostFunction) (s : State) (x : Int64) (r : State) :
    Prop where
  during : c.During hosts s r
  place : r.place = c.start + 2
  callers : r.callers = s.callers
  settled : r.Settled L.program
  index : r.frame[c.slot]? = some (some (.integer x))

section

variable {c : l.Code L} {hosts : Array HostFunction} {n x : Int64} {s r r' : State} {k : Nat}

/-- The places of the loop are in order. -/
theorem places_le (c : l.Code L) : c.start + 3 ≤ c.less ∧ c.less + 2 ≤ c.back :=
  ⟨c.count.le, c.body.le⟩

/-- The end of the loop is a place of the program. -/
theorem end_lt (c : l.Code L) (hstay : L.program.JumpsStay) (hreturn : L.program.Returning) :
    c.back + 5 < L.program.code.size := by
  obtain ⟨i, hi, hop, hoperand⟩ := c.test
  obtain ⟨e, -, hcode⟩ := hstay _ i hi (by rw [hop]; rfl)
  rw [hoperand] at hcode
  exact hcode.lt_size hreturn

/-- The loop begins with its index at zero. -/
theorem starts (hs : s.place = c.start) (hsettled : s.Settled L.program)
    (hp : L.program.Guarded) (hslot : c.slot < s.frame.size) :
    ∃ r, StepsVia L.program hosts (c.Quiet s.callers.length) 2 s r ∧ c.Testing hosts s 0 r := by
  obtain ⟨hle, hle'⟩ := c.places_le
  obtain ⟨place, stack, frame, callers, world⟩ := s
  obtain rfl : place = c.start := hs
  have hzero : L.program.next hosts ⟨c.start, stack, frame, callers, world⟩ = _ :=
    next_pushes c.zero
  rw [entryOf_integer] at hzero
  have hstore : L.program.next hosts
      ⟨c.start + 1, some (.integer 0) :: stack, frame, callers, world⟩ = _ :=
    next_store c.store hslot
  have hsteps : StepsVia L.program hosts (c.Quiet callers.length) 2
      ⟨c.start, stack, frame, callers, world⟩ _ :=
    .trans (.single (.of_place ⟨show c.start ≠ _ by omega, show c.start ≠ _ by omega⟩) hzero)
      (.single (.of_place ⟨show c.start + 1 ≠ _ by omega, show c.start + 1 ≠ _ by omega⟩) hstore)
  refine ⟨_, hsteps, During.trans ⟨0, rfl⟩ hsteps, rfl, rfl, hsettled.steps hp hsteps.steps, ?_⟩
  exact Array.getElem?_setIfInBounds_self_of_lt hslot

variable (hp : L.program.Guarded) (hstay : L.program.JumpsStay)
  (hcs : ∀ x ∈ s.callers, x.Kept L.program)
include hp hstay hcs

/-- The index is compared with the count. -/
theorem Testing.compares (h : c.Testing hosts s x r) (hruns : c.Runs hosts n s) :
    ∃ k, StepsVia L.program hosts (c.Quiet s.callers.length) k r
      ⟨c.less + 1, some (.boolean (x < n)) :: r.stack, r.frame, r.callers, r.world⟩ := by
  obtain ⟨hle, hle'⟩ := c.places_le
  obtain ⟨hduring, hplace, hcallers, hsettled, hindex⟩ := h
  obtain ⟨place, stack, frame, callers, world⟩ := r
  obtain rfl : place = c.start + 2 := hplace
  obtain rfl : callers = s.callers := hcallers
  have hload : L.program.next hosts ⟨c.start + 2, stack, frame, s.callers, world⟩ = _ :=
    next_load c.load (Array.getElem?_eq_some_iff.mp hindex).1
  rw [Array.getD_eq_getD_getElem?, show frame[c.slot]? = _ from hindex, Option.getD_some] at hload
  have hfirst : StepsVia L.program hosts (c.Quiet s.callers.length) 1 _ _ :=
    .single (.of_place ⟨show c.start + 2 ≠ _ by omega, show c.start + 2 ≠ _ by omega⟩) hload
  obtain ⟨k, hk⟩ := hruns.count _ (hduring.trans hfirst) ⟨rfl, rfl⟩
  -- While the count is evaluated, the loop is neither tested nor ended.
  have hbetween : L.program.Between c.entry (c.start + 3) c.less (c.start + 3) :=
    ⟨c.codeOf_head (by omega) (by omega), Nat.le_refl _, hle⟩
  obtain ⟨-, -, hunder⟩ := hk.under c.encloses_count hp hstay (hsettled.next hp hload) hcs
    (.own rfl hbetween)
  have hcount : StepsVia L.program hosts (c.Quiet s.callers.length) k _ _ :=
    hunder.mono fun q hq => ⟨hq.not_isAt (by omega), hq.not_isAt (by omega)⟩
  have hless : L.program.next hosts
      ⟨c.less, some (.integer n) :: some (.integer x) :: stack, frame, s.callers, world⟩ = _ :=
    next_lt_integers c.comparison
  exact ⟨_, (hfirst.trans hcount).trans
    (.single (.of_place ⟨show c.less ≠ _ by omega, show c.less ≠ _ by omega⟩) hless)⟩

/-- The index is tested: the body is next if it is less than the count, and otherwise the end of the
loop. -/
theorem Testing.tests (h : c.Testing hosts s x r) (hruns : c.Runs hosts n s)
    (hreturn : L.program.Returning) :
    ∃ k q, StepsVia L.program hosts (c.Quiet s.callers.length) k r q ∧
      q.IsAt (c.less + 1) s.callers.length ∧ L.program.next hosts q = some (.ok ()
        ⟨if x < n then c.less + 2 else c.back + 5, r.stack, r.frame, r.callers, r.world⟩) := by
  obtain ⟨k, hk⟩ := h.compares hp hstay hcs hruns
  have htest : L.program.next hosts
      ⟨c.less + 1, some (.boolean (x < n)) :: r.stack, r.frame, r.callers, r.world⟩ = _ :=
    next_jumpUnless_boolean c.test (c.end_lt hstay hreturn)
  rw [ite_cond_congr (decide_eq_true_eq)] at htest
  exact ⟨k, _, hk, ⟨rfl, by rw [h.callers]⟩, htest⟩

/-- The body comes to its end, and the index is what it was. -/
theorem completes (hkept : l.isKept = true) (hr : r.Settled L.program)
    (hplace : r.place = c.less + 2) (hcallers : r.callers = s.callers)
    (hbody : Reaches L.program hosts r (State.IsAt c.back s.callers.length)) :
    ∃ k r', StepsVia L.program hosts (c.Quiet s.callers.length) k r r' ∧ r'.place = c.back ∧
      r'.callers = s.callers ∧ r'.frame[c.slot]? = r.frame[c.slot]? := by
  obtain ⟨hle, hle'⟩ := c.places_le
  obtain ⟨k, r', hk, hback, hdepth⟩ := hbody.first
  have hbetween : L.program.Between c.entry (c.less + 2) c.back r.place := by
    rw [hplace]
    exact ⟨c.codeOf_body, Nat.le_refl _, hle'⟩
  have henclosed := c.encloses_body hkept
  obtain ⟨hunder', -, hunder⟩ := hk.under henclosed hp hstay hr hcs (.own hcallers hbetween)
  have hown := (hunder'.own_of_depth hdepth).1
  refine ⟨k, r', hunder.mono fun q hq => ⟨hq.not_isAt (by omega), hq.not_isAt (by omega)⟩, hback,
    hown, ?_⟩
  exact (hk.holds henclosed hp hstay hr hcs hcallers hbetween).frame_of_callers hown

omit hstay hcs in
/-- The index is counted on, and tested next. -/
theorem increments (hduring : c.During hosts s r) (hr : r.Settled L.program)
    (hplace : r.place = c.back) (hcallers : r.callers = s.callers)
    (hindex : r.frame[c.slot]? = some (some (.integer x))) :
    ∃ r', StepsVia L.program hosts (c.Quiet s.callers.length) 5 r r' ∧
      c.Testing hosts s (x + 1) r' := by
  obtain ⟨hle, hle'⟩ := c.places_le
  obtain ⟨place, stack, frame, callers, world⟩ := r
  obtain rfl : place = c.back := hplace
  obtain rfl : callers = s.callers := hcallers
  have hslot : c.slot < frame.size := (Array.getElem?_eq_some_iff.mp hindex).1
  have hload : L.program.next hosts ⟨c.back, stack, frame, s.callers, world⟩ = _ :=
    next_load c.loadAgain hslot
  rw [Array.getD_eq_getD_getElem?, show frame[c.slot]? = _ from hindex, Option.getD_some] at hload
  have hone : L.program.next hosts
      ⟨c.back + 1, some (.integer x) :: stack, frame, s.callers, world⟩ = _ := next_pushes c.one
  rw [entryOf_integer] at hone
  have hadd : L.program.next hosts
      ⟨c.back + 2, some (.integer 1) :: some (.integer x) :: stack, frame, s.callers, world⟩ = _ :=
    next_add_integers c.add
  have hstore : L.program.next hosts
      ⟨c.back + 3, some (.integer (x + 1)) :: stack, frame, s.callers, world⟩ = _ :=
    next_store c.storeAgain hslot
  have hjump : L.program.next hosts ⟨c.back + 4, stack,
      frame.setIfInBounds c.slot (some (.integer (x + 1))), s.callers, world⟩ = _ :=
    next_jump c.jump c.load.lt
  -- None of the five places is that of the test or behind the loop.
  have hquiet : ∀ (j : Nat) (st : List Cell) (fr : Array Cell), j < 5 →
      c.Quiet s.callers.length ⟨c.back + j, st, fr, s.callers, world⟩ := fun j st fr hj =>
    .of_place ⟨show c.back + j ≠ _ by omega, show c.back + j ≠ _ by omega⟩
  have hsteps : StepsVia L.program hosts (c.Quiet s.callers.length) 5
      ⟨c.back, stack, frame, s.callers, world⟩ _ :=
    ⟨hquiet 0 _ _ (by decide), _, hload, hquiet 1 _ _ (by decide), _, hone,
      hquiet 2 _ _ (by decide), _, hadd, hquiet 3 _ _ (by decide), _, hstore,
      hquiet 4 _ _ (by decide), _, hjump, rfl⟩
  refine ⟨_, hsteps, hduring.trans hsteps, rfl, rfl, hr.steps hp hsteps.steps, ?_⟩
  exact Array.getElem?_setIfInBounds_self_of_lt hslot

/-- The repetitions that remain when the index is `i`. -/
theorem Testing.repeats (hreturn : L.program.Returning) (hkept : l.isKept = true)
    (hruns : c.Runs hosts n s) (d i : Nat) (hd : n.toInt.toNat = i + d)
    (h : c.Testing hosts s (.ofNat i) r) :
    ∃ entries s', c.Passes hosts s.callers.length r entries s' ∧
      entries.map (fun q => q.frame[c.slot]?) =
        (List.range' i d).map (fun j => some (some (.integer (.ofNat j)))) ∧
      s'.frame[c.slot]? = some (some (.integer (max n 0))) ∧
      ∀ q ∈ entries, q.Settled L.program ∧ q.place = c.less + 2 ∧ q.callers = s.callers := by
  obtain ⟨hle, hle'⟩ := c.places_le
  -- By induction on the repetitions that remain: each comes back to the test with one more.
  induction d generalizing i r with
  | zero =>
    obtain ⟨k, q, hk, htest, hnext⟩ := h.tests hp hstay hcs hruns hreturn
    -- The index is the count, so that the loop ends.
    rw [if_neg (by rw [ofNat_lt_iff (by omega)]; omega)] at hnext
    refine ⟨[], _, .of_quiet hk (.pass ?_ hnext ?_ (.done ⟨rfl, by rw [h.callers]⟩)), rfl, ?_,
      List.forall_mem_nil _⟩
    · rintro ⟨hplace, -⟩
      rw [htest.1] at hplace
      omega
    · rintro ⟨-, hplace⟩
      have hplace : c.back + 5 = c.less + 2 := hplace
      omega
    · rw [← ofNat_toNat_eq_max, hd]
      exact h.index
  | succ d ih =>
    obtain ⟨k, q, hk, htest, hnext⟩ := h.tests hp hstay hcs hruns hreturn
    rw [if_pos (by rw [ofNat_lt_iff (by omega)]; omega)] at hnext
    have hduring := h.during.trans hk
    have hsettled := (h.settled.steps hp hk.steps).next hp hnext
    obtain ⟨k', r', hk', hback, hcallers, hframe⟩ := completes hp hstay hcs hkept hsettled rfl
      h.callers (hruns.body _ _ hduring htest hnext rfl)
    have hduring' := (hduring.next (by rw [htest.1]; omega) hnext).trans hk'
    obtain ⟨r'', hk'', hagain⟩ := increments hp hduring' (hsettled.steps hp hk'.steps) hback
      hcallers (hframe.trans h.index)
    rw [show Int64.ofNat i + 1 = .ofNat (i + 1) from (Int64.ofNat_add i 1).symm] at hagain
    obtain ⟨entries, s', hpasses, hindices, hends, hentries⟩ := ih (i + 1) (by omega) hagain
    refine ⟨_ :: entries, s', .of_quiet hk (.enter htest hnext rfl
      (.of_quiet hk' (.of_quiet hk'' hpasses))), ?_, hends, ?_⟩
    · rw [List.map_cons, List.range'_succ, List.map_cons, hindices]
      exact congrArg (· :: _) h.index
    · exact List.forall_mem_cons.mpr ⟨⟨hsettled, rfl, h.callers⟩, hentries⟩

end

end CountLoop.Code

/-- Counting loops. Every counting loop of a program that is compiled, in which every `leave` is
inside a loop of its own function, has code. Let its body neither leave it nor give anything back,
and declare and assign only other variables than its index, with names that no hidden variable may
have. If a run comes to it, all evaluations of its count push the integer `n` and do nothing else,
and the body always comes to its end, then the loop ends. Its body is entered with the indices from
zero on that are less than `n`, in order, and behind it the index is `n`, or zero if that is
negative. From each entry up to the end of the body the index of the activation stays what it is,
whatever loops and calls there are in the body. -/
theorem count_loops_repeat {t : Tree Cell} {imports : List Import} {p : Program}
    (hosts : Array HostFunction) (h : compile t imports = .ok p)
    (hfits : p.code.size < 0x8000000000000000) (hleaves : t.leavesLoops = true) :
    ∃ L : Layout, L.program = p ∧ Compiled t imports L ∧ ∀ l ∈ t.countLoops,
      Nonempty (l.Code L) ∧ (l.isKept = true → ∀ (c : l.Code L) (n : Int64) (s : State),
        c.Runs hosts n s → ∃ entries s', c.Passes hosts s.callers.length s entries s' ∧
          entries.map (fun r => r.frame[c.slot]?) =
            (List.range n.toInt.toNat).map (fun i => some (some (.integer (.ofNat i)))) ∧
          s'.frame[c.slot]? = some (some (.integer (max n 0))) ∧
          ∀ r ∈ entries, ∀ k q,
            StepsVia p hosts (fun q => ¬ q.IsAt c.back s.callers.length) k r q →
            q.Holds s.callers c.slot r.frame[c.slot]?) := by
  obtain ⟨L, rfl, hL⟩ := compile_layout h hfits
  have hp := hL.guarded
  have hstay := hL.jumpsStay_iff.mpr hleaves
  refine ⟨L, rfl, hL, fun l hl => ⟨hL.loop_code hl, fun hkept c n s hruns => ?_⟩⟩
  obtain ⟨hle, hle'⟩ := c.places_le
  obtain ⟨w, j, hreached⟩ := hruns.reached
  have hentry : ¬ L.program.IsEntry s.place := by
    rw [hruns.place]
    exact c.plain_head.not_isEntry (Nat.le_refl _) (by omega)
  have hsettled : s.Settled L.program := .reached hp hreached hentry
  have hcs : ∀ x ∈ s.callers, x.Kept L.program := by
    cases hsettled with
    | inside _ hcallers => exact hcallers
    | entering hplace => exact absurd hplace hentry
  -- The frame in use is that of the function of the loop, so that it has the slot of the index.
  have hslot : c.slot < s.frame.size := by
    have hcode : L.program.CodeOf c.entry s.place := by
      rw [hruns.place]
      exact c.codeOf_head (Nat.le_refl _) (by omega)
    rw [hL.frame_size hleaves hreached hentry hcode c.frame]
    exact c.index.lt
  obtain ⟨r, hr, htesting⟩ := CountLoop.Code.starts hruns.place hsettled hp hslot
  obtain ⟨entries, s', hpasses, hindices, hends, hentries⟩ :=
    htesting.repeats hp hstay hcs hL.returning hkept hruns n.toInt.toNat 0 (Nat.zero_add _).symm
  refine ⟨entries, s', .of_quiet hr hpasses, ?_, hends, fun q hq k q' hk => ?_⟩
  · rw [List.range_eq_range', hindices]
  · obtain ⟨hq, hplace, hcallers⟩ := hentries q hq
    exact hk.holds (c.encloses_body hkept) hp hstay hq hcs hcallers
      (by rw [hplace]; exact ⟨c.codeOf_body, Nat.le_refl _, hle'⟩)

/-- A loop with an index whose body has a loop without one and calls a function that calls itself
with one less, until its argument is zero. -/
def Tree.countedCalls : Tree Cell :=
  ⟨{}, [.define {} "f" ["x"] (.branch {} (.load {} "x")
      (.perform {} "f" [.binary {} .sub (.load {} "x") (.literal {} (some (.integer 1)))]) .absent),
    .countLoop {} "i" (.literal {} (some (.integer 2))) (.block {}
      [.countLoop {} "" (.literal {} (some (.integer 1))) .absent,
        .perform {} "f" [.load {} "i"]])]⟩

/-- The loop with an index of the program. -/
def CountLoop.calling : CountLoop where
  index := "i"
  count := .literal {} (some (.integer 2))
  body := .block {} [.countLoop {} "" (.literal {} (some (.integer 1))) .absent,
    .perform {} "f" [.load {} "i"]]

/-- Where the loop stands, if a program has a comparison in front of a test and a constant at one
place only. -/
theorem CountLoop.Code.places_calling {L : Layout} (c : CountLoop.calling.Code L) {a b : Nat}
    (hplace : ∀ q < L.program.code.size, L.program.code[q + 4]?.map (·.op) = some .lt →
      L.program.code[q + 6]?.map (·.op) = some .constant → q = a)
    (hend : L.program.code[a + 5]?.map (·.operand.toNat) = some (b + 5)) :
    c.start = a ∧ c.less = a + 4 ∧ c.back = b ∧
      L.Pushes (c.start + 3) (some (.integer 2)) := by
  obtain ⟨hpush, hless⟩ := c.count
  obtain ⟨m, ⟨k, m', n, -, ⟨j, -, o, ho, hop, -⟩, -⟩, -⟩ := c.body
  obtain ⟨o', ho', hop', -⟩ := c.comparison
  have hstart : c.start = a := by
    refine hplace c.start (Nat.lt_of_succ_lt c.store.lt) ?_ ?_
    · rw [← show c.less = c.start + 4 from hless, ho', Option.map_some, hop']
    · rw [← show c.less + 2 = c.start + 6 by omega, ho, Option.map_some, hop]
  obtain ⟨i, hi, -, hoperand⟩ := c.test
  have hi' : L.program.code[a + 5]? = some i := by rw [← hi]; congr 1; omega
  rw [hi', Option.map_some, hoperand] at hend
  cases hend
  exact ⟨hstart, by omega, rfl, hpush⟩

/-- The loop is repeated with the indices zero and one, though the function that it calls stores
into the slot of the same number in frames of its own, and the loop inside counts too. -/
theorem count_loops_repeat_countedCalls : ∃ p, compile .countedCalls [] = .ok p ∧
    ∃ L : Layout, L.program = p ∧ ∃ (c : CountLoop.calling.Code L) (s : State),
      CountLoop.calling.isKept = true ∧ c.Runs #[] 2 s ∧
      ∃ entries s', c.Passes #[] s.callers.length s entries s' ∧
        entries.map (fun r => r.frame[c.slot]?) =
          [some (some (.integer 0)), some (some (.integer 1))] ∧
        s'.frame[c.slot]? = some (some (.integer 2)) := by
  obtain ⟨p, h, hfits, hplace, hend, s, hs, hstart, hdepth, e, hsteps, hlast⟩ :=
    exists_compile .countedCalls [] (fun p => p.code.size < 0x8000000000000000 ∧
      (∀ q < p.code.size, p.code[q + 4]?.map (·.op) = some .lt →
        p.code[q + 6]?.map (·.op) = some .constant → q = 14) ∧
      p.code[14 + 5]?.map (·.operand.toNat) = some (34 + 5) ∧
      ∃ s, Steps p #[] 2 (State.start p.code.size {}) s ∧ s.place = 14 ∧ s.callers.length = 1 ∧
        ∃ e, StepsVia p #[] (fun r => r.place = 20 →
          ∃ k < 45, ∃ r', Steps p #[] k r r' ∧ r'.IsAt 34 1) 84 s e ∧ e.IsAt 39 1)
      (by decide +kernel)
  obtain ⟨L, rfl, -, hall⟩ := count_loops_repeat #[] h hfits (by decide)
  obtain ⟨⟨c⟩, hrepeats⟩ := hall CountLoop.calling List.mem_cons_self
  obtain ⟨hstart', hless, hback, hpush⟩ := c.places_calling hplace hend
  have hruns : c.Runs #[] 2 s := by
    refine ⟨⟨{}, 2, hs⟩, hstart.trans hstart'.symm, fun r _ hr => ⟨1, ?_⟩, ?_⟩
    · obtain ⟨place, stack, frame, callers, world⟩ := r
      obtain rfl : place = c.start + 3 := hr.1
      have hnext : L.program.next #[] ⟨c.start + 3, stack, frame, callers, world⟩ = _ :=
        next_pushes hpush
      rw [entryOf_integer, show c.start + 3 + 1 = c.less by omega] at hnext
      exact .single (fun hat => absurd hat.1 (show c.start + 3 ≠ c.less by omega)) hnext
    · rintro q r ⟨k, hk⟩ hq hnext hr
      rw [hdepth, hback] at hk
      rw [hdepth, hback]
      have hentered : Steps L.program #[] (k + 1) s r := hk.steps.trans (.single hnext)
      -- The body is entered before the run comes to the end of the loop.
      have hlt : k + 1 < 84 := by
        rcases Nat.lt_trichotomy k 84 with hlt | rfl | hlt
        · refine Nat.lt_of_le_of_ne hlt fun heq => ?_
          rw [heq] at hentered
          have hplace := congrArg State.place (hentered.unique hsteps.steps)
          rw [hr, hless, hlast.1] at hplace
          cases hplace
        · have hplace := congrArg State.place (hk.steps.unique hsteps.steps)
          rw [hq.1, hless, hlast.1] at hplace
          cases hplace
        · exact absurd hlast (hk.good_of_lt hlt hsteps.steps)
      obtain ⟨j, -, r', hj, hr'⟩ := hsteps.good_of_lt hlt hentered (by rw [hr, hless])
      exact ⟨j, r', hj, hr'⟩
  obtain ⟨entries, s', hpasses, hindices, hends, -⟩ := hrepeats (by decide) c 2 s hruns
  exact ⟨L.program, h, L, rfl, c, s, by decide, hruns, entries, s', hpasses, hindices, hends⟩

end StackScript
