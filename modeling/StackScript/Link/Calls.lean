import StackScript.Code.Instruction
import StackScript.Link.Error
import StackScript.Value.Pool

/-!
# Linking calls

Every call is checked against the signature of its function. A call of a function of the host
becomes a host call; one that passes fewer arguments than the function declares is made to pass
false for the rest. A return directly before another return is dropped.
-/

namespace StackScript

/-- The instruction that pushes false. -/
def loadFalse : Instruction := { op := .constant, operand := UInt64.ofNat Pool.falseIndex }

/-- The instructions for a call. -/
def linkCall (symbols : Symbols) (i : Instruction) : Except LinkError (List Instruction) :=
  match symbols.function? i.callee with
  | none => .error (.functionNotFound i.callee)
  | some f =>
    if i.argc < f.minimum then .error (.tooFewArguments f.name f.minimum i.argc)
    else if HostCall.maxArguments < i.argc then .error (.argumentLimit f.name i.argc)
    else if f.isHost then
      .ok [{ i with op := .callHost, operand := HostCall.pack i.argc f.dispatch, target := [] }]
    else if f.declared < i.argc then .error (.tooManyArguments f.name f.declared i.argc)
    else
      .ok (List.replicate (f.declared - i.argc).toNat loadFalse ++ [{ i with argc := f.declared }])

/-- Whether code begins with a return. -/
def startsWithReturn : List Instruction → Bool
  | i :: _ => i.op == .ret
  | [] => false

/-- Links the calls of code. -/
def linkCalls (symbols : Symbols) : List Instruction → Except LinkError (List Instruction)
  | [] => .ok []
  | i :: rest =>
    if i.op = .call then do
      let here ← linkCall symbols i
      let there ← linkCalls symbols rest
      return here ++ there
    else if i.op = .ret && startsWithReturn rest then linkCalls symbols rest
    else do
      let there ← linkCalls symbols rest
      return i :: there

end StackScript
