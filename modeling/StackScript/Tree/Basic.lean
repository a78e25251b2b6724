import StackScript.Value.Operator

/-!
# Syntax trees

The programs that are compiled. A tree is made over a type of literals: cells of a store when it is
compiled, data when it stands in a file. A place for an expression or a statement may be empty.
-/

namespace StackScript

/-- A place in a source text; line zero means that it is not known. -/
structure Position where
  /-- The line, from one on. -/
  line : Int64 := 0
  /-- The column, from one on. -/
  col : Int64 := 0
deriving DecidableEq

/-- A position as messages show it. -/
def Position.text (p : Position) : Bytes :=
  if p.line = 0 then "?" else decimalInt p.line.toInt ++ ":" ++ decimalInt p.col.toInt

/-- A message with the position that it is about in front, if that is known. -/
def Position.mark (p : Position) (message : Bytes) : Bytes :=
  if p.line = 0 then message else p.text ++ ": " ++ message

/-- An expression. -/
inductive Expr (ν : Type)
  /-- No expression. -/
  | absent
  /-- A literal value. -/
  | literal (pos : Position) (value : ν)
  /-- The value of a variable. -/
  | load (pos : Position) (name : Bytes)
  /-- A cell of the array in a variable. -/
  | element (pos : Position) (name : Bytes) (row col : Expr ν)
  /-- A new array with every cell set to the fill. -/
  | newArray (pos : Position) (rows cols : Expr ν) (fill : ν)
  /-- The result of a call. -/
  | call (pos : Position) (name : Bytes) (args : List (Expr ν))
  /-- An operator on two operands, both of which are evaluated. -/
  | binary (pos : Position) (op : Operator) (left right : Expr ν)
  /-- The opposite truth value. -/
  | negation (pos : Position) (operand : Expr ν)

/-- A statement. -/
inductive Stmt (ν : Type)
  /-- No statement. -/
  | absent
  /-- Statements in sequence. -/
  | block (pos : Position) (body : List (Stmt ν))
  /-- Declares a variable of the function and sets it. -/
  | declare (pos : Position) (name : Bytes) (value : Expr ν)
  /-- Sets a variable. -/
  | assign (pos : Position) (name : Bytes) (value : Expr ν)
  /-- Sets a cell of the array in a variable. -/
  | assignElement (pos : Position) (name : Bytes) (row col value : Expr ν)
  /-- Executes one branch or the other; the second may be absent. -/
  | branch (pos : Position) (cond : Expr ν) (yes no : Stmt ν)
  /-- Repeats the body while the condition holds. -/
  | whileLoop (pos : Position) (cond : Expr ν) (body : Stmt ν)
  /-- Repeats the body while the index, which counts from zero, is less than the count, evaluated
  anew each time. Without a name the index is hidden. -/
  | countLoop (pos : Position) (index : Bytes) (count : Expr ν) (body : Stmt ν)
  /-- Leaves the innermost loop. -/
  | leave (pos : Position)
  /-- Leaves the function with a value, which is false if absent. -/
  | giveBack (pos : Position) (value : Expr ν)
  /-- Declares a function. -/
  | define (pos : Position) (name : Bytes) (params : List Bytes) (body : Stmt ν)
  /-- A call whose result is dropped. -/
  | perform (pos : Position) (name : Bytes) (args : List (Expr ν))

/-- A whole program. -/
structure Tree (ν : Type) where
  /-- Its position. -/
  pos : Position
  /-- Its statements. -/
  body : List (Stmt ν)

namespace Expr

/-- Whether there is no expression. -/
def isAbsent : Expr ν → Bool
  | absent => true
  | _ => false

end Expr

namespace Stmt

/-- Whether there is no statement. -/
def isAbsent : Stmt ν → Bool
  | absent => true
  | _ => false

end Stmt

end StackScript
