import StackScript.Tree.Basic

/-!
# The functions of a tree

A function may be declared anywhere: inside loops, branches and other functions. Wherever it
stands, the whole program can call it, so a program is a list of functions and the statements
outside all of them. `Stmt.functions` lists the functions in the order in which they begin.
-/

namespace StackScript

/-- A function that a tree declares. -/
structure Function where
  /-- Its name. -/
  name : Bytes
  /-- Its parameters in order. -/
  params : List Bytes
  /-- Its body. -/
  body : Stmt Cell

mutual

/-- The functions that a statement declares, those inside other functions included. -/
def Stmt.functions : Stmt Cell → List Function
  | .absent => []
  | .block _ body => Stmt.allFunctions body
  | .declare _ _ _ => []
  | .assign _ _ _ => []
  | .assignElement _ _ _ _ _ => []
  | .branch _ _ yes no => yes.functions ++ no.functions
  | .whileLoop _ _ body => body.functions
  | .countLoop _ _ _ body => body.functions
  | .leave _ => []
  | .giveBack _ _ => []
  | .define _ name params body => ⟨name, params, body⟩ :: body.functions
  | .perform _ _ _ => []

/-- The functions that statements in sequence declare. -/
def Stmt.allFunctions : List (Stmt Cell) → List Function
  | [] => []
  | s :: ss => s.functions ++ Stmt.allFunctions ss

end

/-- Only the absent statement counts as absent. -/
theorem Stmt.eq_absent {s : Stmt Cell} (h : s.isAbsent = true) : s = .absent := by
  cases s with
  | absent => rfl
  | _ => cases h

/-- Only the absent expression counts as absent. -/
theorem Expr.eq_absent {e : Expr Cell} (h : e.isAbsent = true) : e = .absent := by
  cases e with
  | absent => rfl
  | _ => cases h

/-- The functions that a program declares. -/
def Tree.functions (t : Tree Cell) : List Function := Stmt.allFunctions t.body

/-- The function of a given name; of several the first. -/
def functionNamed? (functions : List Function) (name : Bytes) : Option Function :=
  functions.find? fun d => d.name == name

/-- A function found by its name is one of the functions and has the name. -/
theorem functionNamed?_eq_some {functions : List Function} {name : Bytes} {d : Function}
    (h : functionNamed? functions name = some d) : d ∈ functions ∧ d.name = name := by
  unfold functionNamed? at h
  have hname := List.find?_some h
  exact ⟨List.mem_of_find?_eq_some h, by simpa using hname⟩

end StackScript
