import StackScript.Proofs.Layout.Loads
import StackScript.Proofs.Machine.Writes

/-!
# What a literal is when the program runs

One would have every execution of a literal push what the tree says: the same value, and for an
array the same cells. This is not so. Literals that are identical share an entry of the pool, and
the two zeros among the real numbers are identical (`Tree.signedZeros`). An array is pushed by its
key, so that what the program writes to it is there when the literal is executed again
(`Tree.sharedArray`).

Nothing else can go wrong. A load pushes the first of the program's constants that is identical to
its literal, which is the literal itself unless that is a zero. An array keeps its size, and its
cells are those of the tree with the writes of the run so far applied in order.
-/

namespace StackScript

/-- The array that a value is. -/
def Cell.array? : Cell → Option Nat
  | some (.array key) => some key
  | _ => none

/-- A literal of a tree whose arrays are those of `st` is on top of the stack. If it is an array, it
has the size and the cells that it has in the tree. -/
def State.Shows (st : Store) (s : State) (v : Cell) : Prop :=
  s.stack.head? = some v ∧ ∀ key ∈ v.array?, s.world.store.grid key = st.grid key

instance (st : Store) (s : State) (v : Cell) : Decidable (s.Shows st v) :=
  inferInstanceAs (Decidable (_ ∧ _))

/-- Whenever a run from the world `w` comes to a load, it pushes the literal that the tree has
there. -/
def PushesLiterals (t : Tree Cell) (st : Store) (p : Program) (hosts : Array HostFunction)
    (w : World) : Prop :=
  ∀ n s, Steps p hosts n (.start p.code.size w) s →
    ∀ (i : Nat) (v : Cell), t.loads[i]? = some v → p.loadPlaces[i]? = some s.place →
      ∃ s', p.next hosts s = some (.ok () s') ∧ s'.Shows st v

section

variable {t : Tree Cell} {imports : List Import} {p : Program} {hosts : Array HostFunction}
  {st : Store} {w : World} {n : Nat} {s : State}

/-- A load pushes the first constant of the tree that is identical to its literal. -/
theorem next_of_loads (h : compile t imports = .ok p) (hfits : p.code.size < 0x8000000000000000)
    {i : Nat} {v : Cell} (hv : t.loads[i]? = some v) (hplace : p.loadPlaces[i]? = some s.place) :
    p.next hosts s = some (.ok ()
      { s with place := s.place + 1, stack := entryOf t.loads v :: s.stack }) := by
  have hpool := compile_pool h
  obtain ⟨L, rfl, hL⟩ := compile_layout h hfits
  -- The layout says which literal the instruction at this place was laid out for.
  have hpushes : L.Pushes s.place v := by
    obtain ⟨hi, hvi⟩ := List.getElem?_eq_some_iff.mp hv
    obtain ⟨hj, hplacej⟩ := List.getElem?_eq_some_iff.mp hplace
    have hget := (List.forall₂_iff_get.mp hL.loads).2 i hi hj
    rwa [List.get_eq_getElem, List.get_eq_getElem, hvi, hplacej] at hget
  -- What is pushed is looked up in the pool, which begins with constants the tree may not have.
  have hentry : entryOf L.program.constants.toList v = entryOf t.loads v := by
    rw [hpool, entryOf_addAll]
  rw [← hentry]
  exact next_pushes hpushes

/-- The arrays of the tree during a run. -/
theorem Steps.grid_of_extends (hhosts : ∀ f ∈ hosts, Host.LeavesArrays f.run)
    (hst : w.store.Extends st) (h : Steps p hosts n (.start p.code.size w) s) {key : Nat}
    (hkey : key < st.next) :
    s.world.store.grid key =
      (p.writes hosts n (.start p.code.size w)).foldl (CellWrite.onto key) (st.grid key) := by
  have hgrid := h.grid_eq hhosts (Nat.lt_of_lt_of_le hkey hst.next_le)
  have hstart : (State.start p.code.size w).world.store.grid key = st.grid key := hst.grid hkey
  rwa [hstart] at hgrid

/-- A run that comes to a load and does not show the literal behind it. -/
theorem not_pushesLiterals_of_steps {i : Nat} {v : Cell} (hv : t.loads[i]? = some v)
    (hload : ∃ s, Steps p hosts n (.start p.code.size w) s ∧ p.loadPlaces[i]? = some s.place)
    (hnot : ∃ s, Steps p hosts (n + 1) (.start p.code.size w) s ∧ ¬ s.Shows st v) :
    ¬ PushesLiterals t st p hosts w := by
  intro h
  obtain ⟨s, hsteps, hplace⟩ := hload
  obtain ⟨r, hr, hnot⟩ := hnot
  obtain ⟨s', hnext, hshows⟩ := h n s hsteps i v hv hplace
  have hs' := hsteps.trans (.single hnext)
  rw [hs'.unique hr] at hshows
  exact hnot hshows

end

/-- Literals at run time. The loads of a program are those of its tree in the order of the code. A
run that comes to one pushes the first constant of the tree that is identical to its literal, that
is, the literal itself or, for a zero among the real numbers, the first such zero. The arrays that
the tree's literals are have their size whatever was executed before, and the cells of the tree with
what the run has written to them, if the functions of the host leave arrays alone. -/
theorem literals_loaded {t : Tree Cell} {imports : List Import} {p : Program}
    (hosts : Array HostFunction) (h : compile t imports = .ok p)
    (hfits : p.code.size < 0x8000000000000000) {st : Store} {w : World}
    (hst : w.store.Extends st) :
    t.loads.length = p.loadPlaces.length ∧
      ∀ n s, Steps p hosts n (.start p.code.size w) s →
        ∀ (i : Nat) (v : Cell), t.loads[i]? = some v → p.loadPlaces[i]? = some s.place →
          p.next hosts s = some (.ok ()
            { s with place := s.place + 1, stack := entryOf t.loads v :: s.stack }) ∧
          (entryOf t.loads v = v ∨
            (entryOf t.loads v).isZeroReal = true ∧ v.isZeroReal = true) ∧
          ((∀ f ∈ hosts, Host.LeavesArrays f.run) → ∀ key < st.next,
            (s.world.store.grid key).rows = (st.grid key).rows ∧
            (s.world.store.grid key).cols = (st.grid key).cols ∧
            s.world.store.grid key =
              (p.writes hosts n (.start p.code.size w)).foldl (CellWrite.onto key)
                (st.grid key)) := by
  constructor
  · obtain ⟨L, rfl, hL⟩ := compile_layout h hfits
    exact hL.loads.length_eq
  intro n s hsteps i v hv hplace
  refine ⟨next_of_loads h hfits hv hplace, entryOf_cases t.loads v, ?_⟩
  intro hhosts key hkey
  have hgrid := hsteps.grid_of_extends hhosts hst hkey
  -- Writes set cells and leave the size as it is.
  obtain ⟨hrows, hcols⟩ := CellWrite.foldl_size key
    (p.writes hosts n (.start p.code.size w)) (st.grid key)
  rw [← hgrid] at hrows hcols
  exact ⟨hrows, hcols, hgrid⟩

/-- A store with one array, of one cell that is 0. -/
def Store.oneCell : Store := ⟨#[.filled 1 1 (some (.integer 0))]⟩

/-- A loop whose body reads a cell of a literal and then sets it to 5, twice. -/
def Tree.sharedArray : Tree Cell :=
  let zero := .literal {} (some (.real ⟨0⟩))
  ⟨{}, [.declare {} "x" (.literal {} (some (.integer 1))),
    .countLoop {} "" (.literal {} (some (.integer 2))) (.block {}
      [.declare {} "a" (.literal {} (some (.array 0))),
        .assign {} "x" (.element {} "a" zero zero),
        .assignElement {} "a" zero zero (.literal {} (some (.integer 5)))]),
    .giveBack {} (.load {} "x")]⟩

/-- The fourth load is that of the array. The run comes to it a second time after 28 steps, and then
the array has the cell that the first time has written. -/
theorem literals_loaded_sharedArray : ∃ p s, compile .sharedArray [] = .ok p ∧
    p.code.size < 0x8000000000000000 ∧
    Steps p Host.standard.toArray 28 (.start p.code.size { store := .oneCell }) s ∧
    p.loadPlaces[3]? = some s.place ∧
    p.next Host.standard.toArray s = some (.ok ()
      { s with place := s.place + 1, stack := some (.array 0) :: s.stack }) ∧
    (s.world.store.grid 0).rows = 1 ∧ (s.world.store.grid 0).cols = 1 ∧
    (s.world.store.grid 0).cells = #[some (.integer 5)] := by
  obtain ⟨p, h, hfits, s, hsteps, hplace, hcells⟩ := exists_compile .sharedArray []
    (fun p => p.code.size < 0x8000000000000000 ∧
      ∃ s, Steps p Host.standard.toArray 28 (.start p.code.size { store := .oneCell }) s ∧
        p.loadPlaces[3]? = some s.place ∧
        (s.world.store.grid 0).cells = #[some (.integer 5)]) (by decide +kernel)
  obtain ⟨-, hloaded⟩ := literals_loaded Host.standard.toArray h hfits
    (w := { store := .oneCell }) (.refl .oneCell)
  obtain ⟨hnext, -, harrays⟩ := hloaded 28 s hsteps 3 _ rfl hplace
  obtain ⟨hrows, hcols, -⟩ := harrays Host.standard_leavesArrays 0 (by decide)
  exact ⟨p, s, h, hfits, hsteps, hplace, hnext, hrows, hcols, hcells⟩

/-- A literal 0.0, and then a division of 1.0 by a literal -0.0. -/
def Tree.signedZeros : Tree Cell :=
  ⟨{}, [.declare {} "x" (.literal {} (some (.real ⟨0⟩))),
    .giveBack {} (.binary {} .gt
      (.binary {} .div (.literal {} (some (.real ⟨0x3FF0000000000000⟩)))
        (.literal {} (some (.real ⟨0x8000000000000000⟩))))
      (.literal {} (some (.integer 0))))]⟩

/-- Programs do not always push the literals of their trees: the second execution of an array
literal pushes an array with another cell, and -0.0 behind 0.0 is 0.0. -/
theorem not_pushesLiterals :
    (∃ p, compile .sharedArray [] = .ok p ∧
      ¬ PushesLiterals .sharedArray .oneCell p Host.standard.toArray { store := .oneCell }) ∧
    (∃ p, compile .signedZeros [] = .ok p ∧
      ¬ PushesLiterals .signedZeros .empty p Host.standard.toArray {}) := by
  constructor
  · obtain ⟨p, h, hload, hnot⟩ := exists_compile .sharedArray []
      (fun p => (∃ s, Steps p Host.standard.toArray 28
          (.start p.code.size { store := .oneCell }) s ∧ p.loadPlaces[3]? = some s.place) ∧
        ∃ s, Steps p Host.standard.toArray 29 (.start p.code.size { store := .oneCell }) s ∧
          ¬ s.Shows .oneCell (some (.array 0))) (by decide +kernel)
    exact ⟨p, h, not_pushesLiterals_of_steps rfl hload hnot⟩
  · obtain ⟨p, h, hload, hnot⟩ := exists_compile .signedZeros []
      (fun p => (∃ s, Steps p Host.standard.toArray 4 (.start p.code.size {}) s ∧
          p.loadPlaces[2]? = some s.place) ∧
        ∃ s, Steps p Host.standard.toArray 5 (.start p.code.size {}) s ∧
          ¬ s.Shows .empty (some (.real ⟨0x8000000000000000⟩))) (by decide +kernel)
    exact ⟨p, h, not_pushesLiterals_of_steps rfl hload hnot⟩

end StackScript
