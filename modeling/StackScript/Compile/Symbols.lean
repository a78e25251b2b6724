import StackScript.Compile.Error

/-!
# Symbol tables

The names that a compilation knows: the variables of the functions that are open, the loops that
are open, and the signatures of all functions. A variable is looked up in the innermost function
only. A function keeps the index of its first definition for good.
-/

namespace StackScript

/-- The variables of a function that is open. -/
structure Scope where
  /-- The name of the function. -/
  name : Bytes
  /-- The variables in the order of their slots. -/
  slots : Array Bytes := #[]
deriving DecidableEq

/-- The labels of a loop that is open. -/
structure LoopLabels where
  /-- The label of its start. -/
  start : Bytes
  /-- The label behind its end. -/
  stop : Bytes
deriving DecidableEq

/-- What calls of a function need to know. -/
structure Signature where
  /-- The name of the function. -/
  name : Bytes
  /-- The number of parameters, negative for a function of the host. -/
  declared : Int
  /-- The fewest arguments that a call may pass. -/
  minimum : Int
  /-- The index that its first definition gave it. -/
  dispatch : Nat
deriving DecidableEq

/-- Whether the host provides the function. -/
def Signature.isHost (f : Signature) : Bool := f.declared < 0

/-- The number of parameters of functions of the host. -/
def hostArity : Int := -1

/-- The names that a compilation knows. -/
structure Symbols where
  /-- The functions that are open, the innermost first. -/
  scopes : List Scope := []
  /-- The loops that are open, the innermost first. -/
  loops : List LoopLabels := []
  /-- The signatures in the order of first definition. -/
  functions : List Signature := []

namespace Symbols

/-- Opens a function. -/
def enter (s : Symbols) (name : Bytes) : Symbols := { s with scopes := { name } :: s.scopes }

/-- The innermost function that is open. -/
def current (s : Symbols) : Except CompileFault Scope :=
  match s.scopes with
  | scope :: _ => .ok scope
  | [] => .error .noScope

/-- Closes the innermost function and gives its scope. -/
def exit (s : Symbols) : Except CompileFault (Scope × Symbols) :=
  match s.scopes with
  | scope :: scopes => .ok (scope, { s with scopes })
  | [] => .error .noScope

/-- Declares a variable in the innermost function and gives its slot. A name that is declared again
gets another slot. -/
def declare (s : Symbols) (name : Bytes) : Except CompileFault (Nat × Symbols) :=
  match s.scopes with
  | scope :: scopes =>
    .ok (scope.slots.size,
      { s with scopes := { scope with slots := scope.slots.push name } :: scopes })
  | [] => .error (.declareOutside name)

/-- The slot of the first variable of a name in the innermost function. -/
def resolve (s : Symbols) (name : Bytes) : Except CompileFault Nat :=
  match s.scopes with
  | scope :: _ =>
    match scope.slots.findIdx? (· == name) with
    | some slot => .ok slot
    | none => .error (.variableNotFound name)
  | [] => .error (.resolveOutside name)

/-- Opens a loop. -/
def enterLoop (s : Symbols) (start stop : Bytes) : Symbols :=
  { s with loops := ⟨start, stop⟩ :: s.loops }

/-- Closes the innermost loop, if one is open. -/
def exitLoop (s : Symbols) : Symbols := { s with loops := s.loops.tail }

/-- The label behind the end of the innermost loop. -/
def loopStop (s : Symbols) : Except CompileFault Bytes :=
  match s.loops with
  | loop :: _ => .ok loop.stop
  | [] => .error .breakOutsideLoop

/-- The signature of a function. -/
def function? (s : Symbols) (name : Bytes) : Option Signature :=
  s.functions.find? fun f => f.name == name

/-- Defines a function. A further definition changes the counts of the first. -/
def define (s : Symbols) (name : Bytes) (declared minimum : Int) : Symbols :=
  if (s.function? name).isSome then
    { s with functions := s.functions.map fun f =>
        if f.name == name then { f with declared, minimum } else f }
  else
    { s with functions := s.functions ++ [⟨name, declared, minimum, s.functions.length⟩] }

/-- Defines a function of the host. -/
def defineHost (s : Symbols) (name : Bytes) (minimum : Int) : Symbols :=
  s.define name hostArity minimum

end Symbols

end StackScript
