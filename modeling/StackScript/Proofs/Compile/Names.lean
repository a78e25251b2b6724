import StackScript.Proofs.Compile.Faults
import StackScript.Proofs.Generate.SideBySide

/-!
# Names and positions do not matter

Trees that differ only in positions and names are compiled to the same program, up to the keys of
arrays among its constants, or not compiled for the same reason (`compile_ignores_names`). Their
code is the same already before it is linked, and all functions are closed by then, so no name of a
variable is left that linking could see.
-/

namespace StackScript

/-! ## What errors are tested for -/

/-- What callers of the compiler can test an error for. -/
inductive Sentinel
  | noScope
  | variableNotFound
  | functionNotFound
  | breakOutsideLoop
  | tooFewArguments
  | tooManyArguments
  | argumentLimit
  | undefinedLabel
  | duplicateLabel
deriving DecidableEq

/-- What a fault of a program can be tested for. -/
def CompileFault.sentinel? : CompileFault → Option Sentinel
  | .noScope | .declareOutside _ | .resolveOutside _ => some .noScope
  | .variableNotFound _ => some .variableNotFound
  | .breakOutsideLoop => some .breakOutsideLoop
  | .missingExpression | .unknownOperator _ => none

/-- What a fault of linking can be tested for. -/
def LinkError.sentinel? : LinkError → Option Sentinel
  | .functionNotFound _ => some .functionNotFound
  | .tooFewArguments _ _ _ => some .tooFewArguments
  | .argumentLimit _ _ => some .argumentLimit
  | .tooManyArguments _ _ _ => some .tooManyArguments
  | .duplicateLabel _ => some .duplicateLabel
  | .undefinedLabel _ => some .undefinedLabel
  | .circularLabel _ => none

namespace BuildError

/-- What an error can be tested for. -/
def sentinel? : BuildError → Option Sentinel
  | .compile e => e.fault.sentinel?
  | .link e => e.sentinel?

/-- The error without its position and the name of a variable. -/
def bare : BuildError → BuildError
  | .compile e => .compile ⟨none, e.fault.bare⟩
  | .link e => .link e

/-- The bare fault has the same sentinel. -/
theorem sentinel?_bare (e : BuildError) : e.bare.sentinel? = e.sentinel? := by
  cases e with
  | compile e =>
    obtain ⟨pos, fault⟩ := e
    cases fault <;> rfl
  | link e => rfl

end BuildError

/-! ## Compiling -/

variable {ρ : Nat → Nat → Prop} {st st' : Store}

/-- The pool that a compilation begins with has no arrays. -/
theorem Pool.initial_renamed (ρ : Nat → Nat → Prop) :
    Cell.AllRenamed ρ Pool.initial.entries.toList Pool.initial.entries.toList := by
  rw [Pool.initial_entries]
  refine List.forall₂_same.mpr fun c hc => ?_
  obtain ⟨v, hv, rfl⟩ := List.mem_map.mp hc
  have hscalar : ∀ v ∈ Pool.seeds, v.kind ≠ .array := by decide
  exact .scalar (hscalar v hv)

/-- Trees that differ only in positions and names are compiled to the same program, up to the keys
of arrays among its constants, or not compiled for the same reason, up to its position and the
variable that it names. -/
theorem compile_ignores_names (hρ : Store.Renamed ρ st st') {t t' : Tree Cell}
    (h : t.Renamed ρ t') (imports : List Import) :
    (∃ p p', compile t imports = .ok p ∧ compile t' imports = .ok p' ∧ p'.code = p.code ∧
      p'.created = p.created ∧ Cell.AllRenamed ρ p.constants.toList p'.constants.toList) ∨
    ∃ e e', compile t imports = .error e ∧ compile t' imports = .error e' ∧
      e'.sentinel? = e.sentinel? ∧ e'.bare = e.bare := by
  have hstart : Compilation.Renamed ρ [] { symbols := Symbols.hosted imports }
      { symbols := Symbols.hosted imports } :=
    ⟨.hosted imports, Pool.initial_renamed ρ, rfl, rfl⟩
  rcases (h.generate hρ).results hstart with
    ⟨_, _, c, d, hc, hd, -, hcd⟩ | ⟨e, e', c, d, hc, hd, hkind⟩
  · -- The code is the same, and it is linked with the same functions.
    rw [compile_of_generate_ok hc, compile_of_generate_ok hd, hcd.symbols.eq_of_closed, hcd.code]
    cases linkCalls c.symbols c.code.toList >>= linkLabels with
    | ok out => exact .inl ⟨_, _, rfl, rfl, rfl, rfl, hcd.pool⟩
    | error e => exact .inr ⟨_, _, rfl, rfl, rfl, rfl⟩
  · rw [compile_of_generate_error hc, compile_of_generate_error hd]
    have hbare : (BuildError.compile e').bare = (BuildError.compile e).bare := by
      show BuildError.compile ⟨none, e'.kind⟩ = BuildError.compile ⟨none, e.kind⟩
      rw [hkind]
    refine .inr ⟨_, _, rfl, rfl, ?_, hbare⟩
    rw [← BuildError.sentinel?_bare, hbare, BuildError.sentinel?_bare]

/-- A program with an array and a loop that calls a function. The function counts with a hidden
index, and declares a variable with the name of its second parameter. -/
def Tree.summing (pos : Position) (total i a x y : Bytes) (key : Nat) : Tree Cell where
  pos := pos
  body :=
    [.declare pos total (.literal pos (some (.integer 0))),
      .declare pos a (.literal pos (some (.array key))),
      .define pos "add" [x, y] (.block pos
        [.countLoop pos [] (.load pos y)
            (.assign pos x (.binary pos .add (.load pos x) (.load pos y))),
          .declare pos y (.load pos x),
          .giveBack pos (.load pos y)]),
      .countLoop pos i (.literal pos (some (.integer 3)))
        (.assign pos total
          (.call pos "add" [.load pos total, .element pos a (.load pos i) (.load pos i)]))]

/-- A summing tree is renamed name by name. -/
theorem Tree.summing_renamed {σ τ : NameMap} {pos pos' : Position}
    {total total' i i' a a' x x' y y' : Bytes} {key key' : Nat} (htotal : σ.Renames total total')
    (hi : σ.Renames i i') (ha : σ.Renames a a') (hx : τ.Renames x x') (hy : τ.Renames y y')
    (hkey : ρ key key') :
    (summing pos total i a x y key).Renamed ρ (summing pos' total' i' a' x' y' key') := by
  have hhidden : Stmt.Renamed ρ τ
      (.countLoop pos [] (.load pos y)
        (.assign pos x (.binary pos .add (.load pos x) (.load pos y))))
      (.countLoop pos' [] (.load pos' y')
        (.assign pos' x' (.binary pos' .add (.load pos' x') (.load pos' y')))) :=
    .countLoop (.inl ⟨rfl, rfl⟩) (.load hy) (.assign hx (.binary (.load hx) (.load hy)))
  refine ⟨σ, .cons (.declare htotal (.literal ?_)) (.cons (.declare ha (.literal ?_))
    (.cons (.define (τ := τ) (.cons hx (.cons hy .nil)) (.block ?_)) (.cons ?_ .nil)))⟩
  · exact .scalar (by decide)
  · exact ⟨_, rfl, key', rfl, hkey⟩
  · exact .cons hhidden (.cons (.declare hy (.load hx)) (.cons (.giveBack (.load hy)) .nil))
  · refine .countLoop (.inr hi) (.literal (.scalar (by decide))) (.assign htotal ?_)
    exact .call (.cons (.load htotal) (.cons (.element ha (.load hi) (.load hi)) .nil))

/-- Stores with the same array, which is the first of one and the second of the other. -/
theorem Store.renamed_second (g : Grid)
    (h : g.Renamed (fun k l => k = 0 ∧ l = 1) g) :
    Store.Renamed (fun k l => k = 0 ∧ l = 1) ⟨#[g]⟩ ⟨#[.empty, g]⟩ where
  functional := by
    rintro k l l' ⟨-, rfl⟩ ⟨-, rfl⟩
    rfl
  injective := by
    rintro k k' l ⟨rfl, -⟩ ⟨rfl, -⟩
    rfl
  known := by
    rintro k l ⟨rfl, rfl⟩
    exact ⟨Nat.one_pos, Nat.one_lt_two⟩
  grids := by
    rintro k l ⟨rfl, rfl⟩
    exact h

/-- The program trades the names of its variables, the function takes one of them and a new one. -/
theorem compile_ignores_names_summing :
    ∃ p p', compile (.summing ⟨1, 1⟩ "total" "i" "a" "total" "i" 0) [] = .ok p ∧
      compile (.summing ⟨2, 3⟩ "i" "total" "b" "y" "total" 1) [] = .ok p' ∧ p'.code = p.code ∧
      p'.created = p.created ∧
      Cell.AllRenamed (fun k l => k = 0 ∧ l = 1) p.constants.toList p'.constants.toList := by
  let σ := NameMap.ofTable [("total", "i"), ("i", "total"), ("a", "b")] (by decide)
  let τ := NameMap.ofTable [("total", "y"), ("i", "total")] (by decide)
  have hstores := Store.renamed_second (.filled 3 3 (some (.integer 7)))
    ⟨rfl, rfl, .replicate (.scalar (by decide)) 9⟩
  have hrenamed : Tree.Renamed (fun k l => k = 0 ∧ l = 1)
      (.summing ⟨1, 1⟩ "total" "i" "a" "total" "i" 0)
      (.summing ⟨2, 3⟩ "i" "total" "b" "y" "total" 1) := by
    refine Tree.summing_renamed (σ := σ) (τ := τ) ?_ ?_ ?_ ?_ ?_ ⟨rfl, rfl⟩
    all_goals decide
  obtain ⟨p, hp, -⟩ := exists_compile (.summing ⟨1, 1⟩ "total" "i" "a" "total" "i" 0) []
    (fun _ => True) (by decide +kernel)
  rcases compile_ignores_names hstores hrenamed [] with hok | ⟨e, e', he, -⟩
  · exact hok
  · rw [hp] at he
    cases he

end StackScript
