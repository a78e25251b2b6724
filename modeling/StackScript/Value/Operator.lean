import StackScript.Value.Coercion

/-!
# Operators

The two-operand operators of the language on values. Which arithmetic an operator uses depends on
the variants of its operands; a comparison of texts compares their lengths.
-/

namespace StackScript

/-- The two-operand operators, and the numbers that name none. -/
inductive Operator
  | add
  | sub
  | mul
  | div
  | mod
  | eq
  | ne
  | gt
  | lt
  | and
  | or
  /-- A number that is not an operator's. -/
  | undefined (code : Int)
deriving DecidableEq

/-- Why an operator gives no value. -/
inductive OperatorError
  /-- An integer was divided by zero. -/
  | divideByZero
  /-- There is no such operator. -/
  | undefined
  /-- An operand that the operator looks at is missing. -/
  | missing
deriving DecidableEq

namespace Operator

/-- The operators in the order of their numbers. -/
def all : List Operator := [add, sub, mul, div, mod, eq, ne, gt, lt, and, or]

/-- The operator with a given number. -/
def ofCode (code : Int) : Operator :=
  if 0 ≤ code then all[code.toNat]?.getD (undefined code) else undefined code

/-- The number of an operator. -/
def code : Operator → Int
  | add => 0
  | sub => 1
  | mul => 2
  | div => 3
  | mod => 4
  | eq => 5
  | ne => 6
  | gt => 7
  | lt => 8
  | and => 9
  | or => 10
  | undefined n => n

/-- An operator as it is written. -/
def symbol : Operator → Bytes
  | add => "+"
  | sub => "-"
  | mul => "*"
  | div => "/"
  | mod => "%"
  | eq => "=="
  | ne => "!="
  | gt => ">"
  | lt => "<"
  | and => "and"
  | or => "or"
  | undefined n => "BinaryOp(" ++ decimalInt n ++ ")"

/-- The operator that is written so. -/
def ofSymbol? (s : Bytes) : Option Operator := all.find? fun op => op.symbol == s

end Operator

namespace Value

/-- Whether a value is a text. -/
def isString (v : Value) : Bool := v.kind == .string

/-- Whether a value is a real number. -/
def isReal (v : Value) : Bool := v.kind == .real

/-- Whether a value is an integer. -/
def isInteger (v : Value) : Bool := v.kind == .integer

/-- Joins texts if either operand is one, and adds numbers otherwise. -/
def add (st : Store) (v w : Value) : Value :=
  if v.isString || w.isString then string (v.text st ++ w.text st)
  else if v.isReal || w.isReal then real (v.toReal.add w.toReal)
  else integer (v.toInteger + w.toInteger)

/-- Joins texts without the white space between them if either operand is one, and subtracts
numbers otherwise. -/
def sub (st : Store) (v w : Value) : Value :=
  if v.isString || w.isString then string (trimEnd (v.text st) ++ trimStart (w.text st))
  else if v.isReal || w.isReal then real (v.toReal.sub w.toReal)
  else integer (v.toInteger - w.toInteger)

/-- Multiplies; the product is an integer only if both operands are. -/
def mul (v w : Value) : Value :=
  if v.isInteger && w.isInteger then integer (v.toInteger * w.toInteger)
  else real (v.toReal.mul w.toReal)

/-- Divides; the quotient is an integer, rounded toward zero, only if both operands are. -/
def div (v w : Value) : Except OperatorError Value :=
  if v.isInteger && w.isInteger then
    if w.toInteger = 0 then .error .divideByZero
    else .ok (integer (v.toInteger / w.toInteger))
  else .ok (real (v.toReal.div w.toReal))

/-- The remainder of integer division, with the sign of the first operand. -/
def mod (v w : Value) : Except OperatorError Value :=
  if w.toInteger = 0 then .error .divideByZero
  else .ok (integer (v.toInteger % w.toInteger))

/-- Equality as the first operand's variant sees it. -/
def equal (st : Store) (v w : Value) : Bool :=
  match v with
  | integer _ => v.toReal.eq w.toReal
  | real _ => v.toReal.eq w.toReal
  | string s => s == w.text st
  | boolean b => b == w.truth
  | array _ => v == w

/-- Whether the first operand is greater; texts compare by length. -/
def greater (st : Store) (v w : Value) : Bool :=
  if v.isString || w.isString then textLength (w.text st) < textLength (v.text st)
  else if v.isReal || w.isReal then v.toReal.gt w.toReal
  else w.toInteger < v.toInteger

/-- The language's less-than. It is less-than on integers only: texts and real numbers compare as
in `greater`. -/
def less (st : Store) (v w : Value) : Bool :=
  if v.isString || w.isString then textLength (w.text st) < textLength (v.text st)
  else if v.isReal || w.isReal then v.toReal.gt w.toReal
  else v.toInteger < w.toInteger

end Value

namespace Operator

/-- An operator on two values. -/
def apply (st : Store) : Operator → Value → Value → Except OperatorError Value
  | add, v, w => .ok (v.add st w)
  | sub, v, w => .ok (v.sub st w)
  | mul, v, w => .ok (v.mul w)
  | div, v, w => v.div w
  | mod, v, w => v.mod w
  | eq, v, w => .ok (.boolean (v.equal st w))
  | ne, v, w => .ok (.boolean (!v.equal st w))
  | gt, v, w => .ok (.boolean (v.greater st w))
  | lt, v, w => .ok (.boolean (v.less st w))
  | and, v, w => .ok (.boolean (v.truth && w.truth))
  | or, v, w => .ok (.boolean (v.truth || w.truth))
  | undefined _, _, _ => .error .undefined

/-- An operator on operands one of which is missing. It still has a value where it does not look
at the missing one: an array differs from nothing, and a first operand may settle a conjunction or
a disjunction. -/
def applyMissing : Operator → Cell → Cell → Except OperatorError Value
  | undefined _, _, _ => .error .undefined
  | mod, none, some w => if w.toInteger = 0 then .error .divideByZero else .error .missing
  | eq, some (.array _), none => .ok (.boolean false)
  | ne, some (.array _), none => .ok (.boolean true)
  | and, some v, none => if v.truth then .error .missing else .ok (.boolean false)
  | or, some v, none => if v.truth then .ok (.boolean true) else .error .missing
  | _, _, _ => .error .missing

/-- An operator on two cells. -/
def applyCells (st : Store) (op : Operator) : Cell → Cell → Except OperatorError Value
  | some v, some w => op.apply st v w
  | a, b => op.applyMissing a b

end Operator

end StackScript
