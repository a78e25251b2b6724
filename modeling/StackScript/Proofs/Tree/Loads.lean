import StackScript.Proofs.Tree.Functions

/-!
# The constants that a tree loads

Literals and the fills of new arrays are loaded where they stand; so are the constants that the tree
does not show: the false that a function gives back at its end, the zero and the one of a counting
loop, and a false for each argument that a call leaves out. `Tree.loads` lists all of them in the
order of the code, in which the arguments of a call come last first.
-/

namespace StackScript

/-- The constants for the arguments that a call with `k` arguments leaves out. -/
def missingArguments (functions : List Function) (name : Bytes) (k : Nat) : List Cell :=
  match functionNamed? functions name with
  | some d => List.replicate (d.params.length - k) (some (.boolean false))
  | none => []

mutual

/-- The constants that an expression loads in a program with the given functions. -/
def Expr.loads (functions : List Function) : Expr Cell → List Cell
  | .absent => []
  | .literal _ v => [v]
  | .load _ _ => []
  | .element _ _ row col => row.loads functions ++ col.loads functions
  | .newArray _ rows cols fill =>
    rows.loads functions ++ (cols.loads functions ++ [some (fill.getD (.boolean false))])
  | .call _ name args =>
    Expr.argumentLoads functions args ++ missingArguments functions name args.length
  | .binary _ _ left right => left.loads functions ++ right.loads functions
  | .negation _ operand => operand.loads functions

/-- The constants that the arguments of a call load, those of the last first. -/
def Expr.argumentLoads (functions : List Function) : List (Expr Cell) → List Cell
  | [] => []
  | e :: es => Expr.argumentLoads functions es ++ e.loads functions

end

mutual

/-- The constants that a statement loads, those of functions that it declares included. -/
def Stmt.loads (functions : List Function) : Stmt Cell → List Cell
  | .absent => []
  | .block _ body => Stmt.allLoads functions body
  | .declare _ _ value => value.loads functions
  | .assign _ _ value => value.loads functions
  | .assignElement _ _ row col value =>
    row.loads functions ++ (col.loads functions ++ value.loads functions)
  | .branch _ cond yes no => cond.loads functions ++ (yes.loads functions ++ no.loads functions)
  | .whileLoop _ cond body => cond.loads functions ++ body.loads functions
  | .countLoop _ _ count body =>
    [some (.integer 0)] ++
      (count.loads functions ++ (body.loads functions ++ [some (.integer 1)]))
  | .leave _ => []
  | .giveBack _ value =>
    if value.isAbsent then [some (.boolean false)] else value.loads functions
  | .define _ _ _ body => body.loads functions ++ [some (.boolean false)]
  | .perform _ name args =>
    Expr.argumentLoads functions args ++ missingArguments functions name args.length

/-- The constants that statements in sequence load. -/
def Stmt.allLoads (functions : List Function) : List (Stmt Cell) → List Cell
  | [] => []
  | s :: ss => s.loads functions ++ Stmt.allLoads functions ss

end

/-- The constants that a program loads, in the order of its code. -/
def Tree.loads (t : Tree Cell) : List Cell :=
  Stmt.allLoads t.functions t.body ++ [some (.boolean false)]

end StackScript
