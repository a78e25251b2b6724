import StackScript.Text.Quoted
import StackScript.Tree.Basic
import StackScript.Value.Datum

/-!
# Interchange nodes

Trees are handed over as nodes of one generic shape: a kind by name, and fields of which each kind
uses some. A node of any shape can be written down; which of them stand for a tree is the matter of
`Node.tree`.
-/

namespace StackScript

/-- A literal value as nodes carry it: a type by name, and fields of which each type uses some. -/
inductive NodeValue
  /-- No value. -/
  | absent
  /-- A value with its fields. -/
  | fields (type : Bytes) (int : Int64) (real : Binary64) (str : Bytes) (bool : Bool)
      (rows cols : Int64) (cells : List NodeValue)

/-- A generic node. The nodes below it are the statements of a program or a block, and the operands
of any other kind. -/
inductive Node
  /-- No node. -/
  | absent
  /-- A node with its fields. -/
  | fields (kind : Bytes) (pos : Position) (name op : Bytes) (params : List Bytes)
      (value : NodeValue) (nodes : List Node)

/-- The types of literal values. -/
inductive LiteralType
  | integer
  | real
  | string
  | boolean
  | array
deriving DecidableEq

namespace LiteralType

/-- The name of a type. -/
def name : LiteralType → Bytes
  | integer => "integer"
  | real => "real"
  | string => "string"
  | boolean => "boolean"
  | array => "array"

/-- The type of a given name. -/
def ofName? (s : Bytes) : Option LiteralType :=
  [integer, real, string, boolean, array].find? fun t => t.name == s

end LiteralType

/-- The kinds of expressions. -/
inductive ExprKind
  | literal
  | load
  | element
  | newArray
  | call
  | binary
  | negation
deriving DecidableEq

namespace ExprKind

/-- The name of a kind. -/
def name : ExprKind → Bytes
  | literal => "const"
  | load => "load"
  | element => "array-read"
  | newArray => "make-array"
  | call => "call"
  | binary => "binary"
  | negation => "not"

/-- The kind of a given name. -/
def ofName? (s : Bytes) : Option ExprKind :=
  [literal, load, element, newArray, call, binary, negation].find? fun k => k.name == s

end ExprKind

/-- The kinds of statements. -/
inductive StmtKind
  | block
  | declare
  | assign
  | assignElement
  | branch
  | whileLoop
  | countLoop
  | leave
  | giveBack
  | define
  | perform
deriving DecidableEq

namespace StmtKind

/-- The name of a kind. -/
def name : StmtKind → Bytes
  | block => "block"
  | declare => "var"
  | assign => "assign"
  | assignElement => "array-assign"
  | branch => "if"
  | whileLoop => "while"
  | countLoop => "repeat"
  | leave => "break"
  | giveBack => "return"
  | define => "function"
  | perform => "call-stmt"

/-- The kind of a given name. -/
def ofName? (s : Bytes) : Option StmtKind :=
  [block, declare, assign, assignElement, branch, whileLoop, countLoop, leave, giveBack, define,
    perform].find? fun k => k.name == s

end StmtKind

/-- The kind of the node of a whole program. -/
def programKind : Bytes := "program"

/-- Whether there is no node. -/
def Node.isAbsent : Node → Bool
  | absent => true
  | _ => false

end StackScript
