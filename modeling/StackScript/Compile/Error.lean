import StackScript.Text.Quoted
import StackScript.Tree.Basic

/-!
# Faults of programs to compile

Why a tree cannot be compiled, and where. A fault takes the position of the innermost node that
knows of it.
-/

namespace StackScript

/-- What is wrong with a program. -/
inductive CompileFault
  /-- No function is open. -/
  | noScope
  /-- No function is open to declare the variable in. -/
  | declareOutside (name : Bytes)
  /-- No function is open to find the variable in. -/
  | resolveOutside (name : Bytes)
  | variableNotFound (name : Bytes)
  | breakOutsideLoop
  | missingExpression
  | unknownOperator (op : Operator)
deriving DecidableEq

/-- The wording of what is wrong with a program. -/
def CompileFault.message : CompileFault → Bytes
  | noScope => "no function scope is open"
  | declareOutside name => "declare " ++ quoted name ++ ": no function scope is open"
  | resolveOutside name => "resolve " ++ quoted name ++ ": no function scope is open"
  | variableNotFound name => "variable not found: " ++ name
  | breakOutsideLoop => "break outside loop"
  | missingExpression => "missing expression"
  | unknownOperator op => "unknown operator " ++ op.symbol

/-- A fault and the position that it was given, if it was given one. -/
structure CompileError where
  /-- The position. -/
  pos : Option Position
  /-- What is wrong. -/
  fault : CompileFault
deriving DecidableEq

namespace CompileError

/-- The wording of a fault with its position. -/
def message (e : CompileError) : Bytes :=
  match e.pos with
  | some p => p.mark e.fault.message
  | none => e.fault.message

/-- The fault with a position, unless it has one. -/
def locate (p : Position) (e : CompileError) : CompileError :=
  match e.pos with
  | some _ => e
  | none => ⟨some p, e.fault⟩

end CompileError

end StackScript
