import StackScript.Number.Shortest
import StackScript.Number.Reading
import StackScript.Text.Blank
import StackScript.Value.Store

/-!
# Coercions between values

Every value stands for an integer, a real number, a text and a truth value. A text stands for the
number that it spells, white space around it aside, and for zero if it spells none.
-/

namespace StackScript

/-- The text of a truth value. -/
def truthText (b : Bool) : Bytes := if b then "True" else "False"

namespace Value

/-- The integer that a value stands for. -/
def toInteger : Value → Int64
  | integer n => n
  | real x => x.toInt64
  | string s => int64OrZero (trim s)
  | boolean b => if b then 1 else 0
  | array _ => 0

/-- The real number that a value stands for. -/
def toReal : Value → Binary64
  | integer n => .ofInt64 n
  | real x => x
  | string s => binary64OrZero (trim s)
  | boolean b => .ofInt64 (if b then 1 else 0)
  | array _ => .zero

/-- The text that a value stands for; that of an array is its size. -/
def text (st : Store) : Value → Bytes
  | integer n => decimalInt n.toInt
  | real x => x.text
  | string s => s
  | boolean b => truthText b
  | array key => (st.grid key).sizeText

/-- Whether a value counts as true. -/
def truth : Value → Bool
  | integer n => n != 0
  | real x => x.truth
  | string s => !s.isEmpty
  | boolean b => b
  | array _ => true

/-- The value as an index or a size: its real number without the fraction part. -/
def toIndex (v : Value) : Int := v.toReal.toInt64.toInt

end Value

/-- A cell as listings show it. -/
def Cell.render (st : Store) : Cell → Bytes
  | some v => v.text st
  | none => "<nil>"

end StackScript
