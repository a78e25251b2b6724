import StackScript.Proofs.Tree.Functions

/-!
# Conditions on trees

What a tree must satisfy for its code to do what the tree says: loops that are left are in the same
function, variables are declared once and have names of their own, calls pass what functions
declare, and frames are not too large. Each is a condition on the statements of one function,
without the functions declared among them, and holds of a tree if it holds of each of its functions
and of the statements outside them. All of them can be computed.
-/

namespace StackScript

mutual

/-- Whether every `leave` of a function is inside a loop of it; `inLoop` says whether the statement
itself is. -/
def Stmt.leavesLoops (inLoop : Bool) : Stmt Cell → Bool
  | .absent => true
  | .block _ body => Stmt.allLeaveLoops inLoop body
  | .declare _ _ _ => true
  | .assign _ _ _ => true
  | .assignElement _ _ _ _ _ => true
  | .branch _ _ yes no => yes.leavesLoops inLoop && no.leavesLoops inLoop
  | .whileLoop _ _ body => body.leavesLoops true
  | .countLoop _ _ _ body => body.leavesLoops true
  | .leave _ => inLoop
  | .giveBack _ _ => true
  | .define _ _ _ _ => true
  | .perform _ _ _ => true

/-- Whether every `leave` of statements in sequence is inside a loop of their function. -/
def Stmt.allLeaveLoops (inLoop : Bool) : List (Stmt Cell) → Bool
  | [] => true
  | s :: ss => s.leavesLoops inLoop && Stmt.allLeaveLoops inLoop ss

end

mutual

/-- Whether every `leave` of a statement is inside some loop, be it one around the function that it
is in; `inLoop` says whether the statement itself is inside one. -/
def Stmt.leavesSomeLoops (inLoop : Bool) : Stmt Cell → Bool
  | .absent => true
  | .block _ body => Stmt.allLeaveSomeLoops inLoop body
  | .declare _ _ _ => true
  | .assign _ _ _ => true
  | .assignElement _ _ _ _ _ => true
  | .branch _ _ yes no => yes.leavesSomeLoops inLoop && no.leavesSomeLoops inLoop
  | .whileLoop _ _ body => body.leavesSomeLoops true
  | .countLoop _ _ _ body => body.leavesSomeLoops true
  | .leave _ => inLoop
  | .giveBack _ _ => true
  | .define _ _ _ body => body.leavesSomeLoops inLoop
  | .perform _ _ _ => true

/-- Whether every `leave` of statements in sequence is inside some loop. -/
def Stmt.allLeaveSomeLoops (inLoop : Bool) : List (Stmt Cell) → Bool
  | [] => true
  | s :: ss => s.leavesSomeLoops inLoop && Stmt.allLeaveSomeLoops inLoop ss

end

mutual

/-- The names that a statement declares in its function. -/
def Stmt.declared : Stmt Cell → List Bytes
  | .absent => []
  | .block _ body => Stmt.allDeclared body
  | .declare _ x _ => [x]
  | .assign _ _ _ => []
  | .assignElement _ _ _ _ _ => []
  | .branch _ _ yes no => yes.declared ++ no.declared
  | .whileLoop _ _ body => body.declared
  | .countLoop _ index _ body => (if index.isEmpty then [] else [index]) ++ body.declared
  | .leave _ => []
  | .giveBack _ _ => []
  | .define _ _ _ _ => []
  | .perform _ _ _ => []

/-- The names that statements in sequence declare in their function. -/
def Stmt.allDeclared : List (Stmt Cell) → List Bytes
  | [] => []
  | s :: ss => s.declared ++ Stmt.allDeclared ss

end

mutual

/-- The number of slots that a statement takes up in its function. -/
def Stmt.slotCount : Stmt Cell → Nat
  | .absent => 0
  | .block _ body => Stmt.allSlotCount body
  | .declare _ _ _ => 1
  | .assign _ _ _ => 0
  | .assignElement _ _ _ _ _ => 0
  | .branch _ _ yes no => yes.slotCount + no.slotCount
  | .whileLoop _ _ body => body.slotCount
  | .countLoop _ _ _ body => 1 + body.slotCount
  | .leave _ => 0
  | .giveBack _ _ => 0
  | .define _ _ _ _ => 0
  | .perform _ _ _ => 0

/-- The number of slots that statements in sequence take up in their function. -/
def Stmt.allSlotCount : List (Stmt Cell) → Nat
  | [] => 0
  | s :: ss => s.slotCount + Stmt.allSlotCount ss

end

mutual

/-- Whether no variable is declared that is `seen` already. The index of a counting loop may be. -/
def Stmt.declaresOnce (seen : List Bytes) : Stmt Cell → Bool
  | .absent => true
  | .block _ body => Stmt.allDeclareOnce seen body
  | .declare _ x _ => x ∉ seen
  | .assign _ _ _ => true
  | .assignElement _ _ _ _ _ => true
  | .branch _ _ yes no => yes.declaresOnce seen && no.declaresOnce (seen ++ yes.declared)
  | .whileLoop _ _ body => body.declaresOnce seen
  | .countLoop _ index _ body => body.declaresOnce (seen ++ if index.isEmpty then [] else [index])
  | .leave _ => true
  | .giveBack _ _ => true
  | .define _ _ _ _ => true
  | .perform _ _ _ => true

/-- Whether statements in sequence declare no variable that is `seen` already. -/
def Stmt.allDeclareOnce (seen : List Bytes) : List (Stmt Cell) → Bool
  | [] => true
  | s :: ss => s.declaresOnce seen && Stmt.allDeclareOnce (seen ++ s.declared) ss

end

/-- Whether a name is not one that a hidden variable may have. -/
def isPlainName (x : Bytes) : Bool := x.head? != some 60

mutual

/-- Whether an expression passes exactly the declared number of arguments to the functions of the
program and uses plain names for variables. -/
def Expr.regular (functions : List Function) : Expr Cell → Bool
  | .absent => true
  | .literal _ _ => true
  | .load _ x => isPlainName x
  | .element _ x row col => isPlainName x && row.regular functions && col.regular functions
  | .newArray _ rows cols _ => rows.regular functions && cols.regular functions
  | .call _ name args =>
    (functionNamed? functions name).all (fun d => d.params.length == args.length) &&
      Expr.allRegular functions args
  | .binary _ _ left right => left.regular functions && right.regular functions
  | .negation _ operand => operand.regular functions

/-- Whether the arguments of a call are regular. -/
def Expr.allRegular (functions : List Function) : List (Expr Cell) → Bool
  | [] => true
  | e :: es => e.regular functions && Expr.allRegular functions es

end

mutual

/-- Whether a statement passes exactly the declared number of arguments to the functions of the
program and uses plain names for variables. -/
def Stmt.regular (functions : List Function) : Stmt Cell → Bool
  | .absent => true
  | .block _ body => Stmt.allRegular functions body
  | .declare _ x value => isPlainName x && value.regular functions
  | .assign _ x value => isPlainName x && value.regular functions
  | .assignElement _ x row col value =>
    isPlainName x && row.regular functions && col.regular functions && value.regular functions
  | .branch _ cond yes no =>
    cond.regular functions && yes.regular functions && no.regular functions
  | .whileLoop _ cond body => cond.regular functions && body.regular functions
  | .countLoop _ index count body =>
    isPlainName index && count.regular functions && body.regular functions
  | .leave _ => true
  | .giveBack _ value => value.regular functions
  | .define _ _ _ _ => true
  | .perform _ name args =>
    (functionNamed? functions name).all (fun d => d.params.length == args.length) &&
      Expr.allRegular functions args

/-- Whether statements in sequence are regular. -/
def Stmt.allRegular (functions : List Function) : List (Stmt Cell) → Bool
  | [] => true
  | s :: ss => s.regular functions && Stmt.allRegular functions ss

end

namespace Tree

/-- Whether every `leave` is inside a loop of its own function. -/
def leavesLoops (t : Tree Cell) : Bool :=
  Stmt.allLeaveLoops false t.body && t.functions.all fun d => d.body.leavesLoops false

/-- Whether every `leave` is inside a loop, of its own function or around it. -/
def leavesSomeLoops (t : Tree Cell) : Bool := Stmt.allLeaveSomeLoops false t.body

/-- Whether no parameter and no variable is declared twice in a function. -/
def declaresOnce (t : Tree Cell) : Bool :=
  Stmt.allDeclareOnce [] t.body &&
    t.functions.all fun d => d.params.Nodup && d.body.declaresOnce d.params

/-- Whether calls pass exactly the declared number of arguments to the functions of the program,
and variables have plain names. -/
def regular (t : Tree Cell) : Bool :=
  Stmt.allRegular t.functions t.body &&
    t.functions.all fun d => d.params.all isPlainName && d.body.regular t.functions

/-- Whether no function has more variables than a frame may have slots. -/
def framesFit (t : Tree Cell) : Bool :=
  Stmt.allSlotCount t.body ≤ maxCells &&
    t.functions.all fun d => d.params.length + d.body.slotCount ≤ maxCells

/-- The sum of the squares below three. The function is declared inside the loop that calls it, and
leaves a loop of its own. -/
def sumOfSquares : Tree Cell :=
  ⟨{}, [.declare {} "sum" (.literal {} (some (.integer 0))),
    .countLoop {} "i" (.literal {} (some (.integer 3))) (.block {}
      [.define {} "square" ["x"] (.block {}
        [.whileLoop {} (.literal {} (some (.boolean true))) (.leave {}),
          .giveBack {} (.binary {} .mul (.load {} "x") (.load {} "x"))]),
        .assign {} "sum" (.binary {} .add (.load {} "sum") (.call {} "square" [.load {} "i"]))]),
    .giveBack {} (.load {} "sum")]⟩

/-- A loop that a function declared inside it leaves. -/
def leftByFunction : Tree Cell :=
  ⟨{}, [.whileLoop {} (.literal {} (some (.boolean true))) (.define {} "f" [] (.leave {}))]⟩

end Tree

end StackScript
