import StackScript.Compile.Symbols

/-!
# Faults of linking

Why code cannot be linked: a call does not suit the function that it names, or a label is not
defined once.
-/

namespace StackScript

/-- Why code cannot be linked. -/
inductive LinkError
  | functionNotFound (name : Bytes)
  | tooFewArguments (name : Bytes) (minimum argc : Int)
  | argumentLimit (name : Bytes) (argc : Int)
  | tooManyArguments (name : Bytes) (declared argc : Int)
  | duplicateLabel (label : Bytes)
  | undefinedLabel (label : Bytes)
  /-- The label stands for another, and that one in the end for the first again. -/
  | circularLabel (label : Bytes)
deriving DecidableEq

/-- The function whose code a label marks. -/
def labelledFunction? (label : Bytes) : Option Bytes :=
  if 3 ≤ label.length && label.head? == some 60 && label.getLast? == some 62 then
    some label.tail.dropLast
  else none

/-- The wording of a fault of linking. -/
def LinkError.message : LinkError → Bytes
  | functionNotFound name => "function not found: " ++ name
  | tooFewArguments name minimum argc =>
    "too few arguments: " ++ name ++ " needs at least " ++ decimalInt minimum ++ ", got " ++
      decimalInt argc
  | argumentLimit name argc =>
    "argument count exceeds maximum: " ++ name ++ " called with " ++ decimalInt argc ++
      " (limit 1023)"
  | tooManyArguments name declared argc =>
    "too many arguments: " ++ name ++ " takes " ++ decimalInt declared ++ ", got " ++
      decimalInt argc
  | duplicateLabel label =>
    match labelledFunction? label with
    | some name => "label defined more than once: function " ++ name ++ " declared twice"
    | none => "label defined more than once: " ++ label
  | undefinedLabel label => "undefined label: " ++ label
  | circularLabel label => "circular label: " ++ label

end StackScript
