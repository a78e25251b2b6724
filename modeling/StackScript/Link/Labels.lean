import StackScript.Code.Instruction
import StackScript.Link.Error

/-!
# Linking labels

The markers of labels are dropped: the instruction behind one takes its label over or, if it has
one of its own, the label becomes an alias of that. Then every jump and call gets the place of the
instruction with its label.
-/

namespace StackScript

/-- Whether an instruction only marks a place. -/
def Instruction.isMarker (i : Instruction) : Bool := i.op == .noop && !i.label.isEmpty

/-- Code without its markers, and the aliases that arise, each with the label that it stands for.
The instruction in front takes over the label `carried`. The last instruction is kept. -/
def mergeMarkers (carried : Bytes) : List Instruction → List Instruction × List (Bytes × Bytes)
  | [] => ([], [])
  | i :: rest =>
    let i := if i.label.isEmpty then { i with label := carried } else i
    match rest with
    | [] => ([i], [])
    | next :: _ =>
      if !i.isMarker then
        let (out, aliases) := mergeMarkers [] rest
        (i :: out, aliases)
      else if next.label.isEmpty then mergeMarkers i.label rest
      else
        let (out, aliases) := mergeMarkers [] rest
        (out, (i.label, next.label) :: aliases)

/-- The label that an alias stands for; of aliases of one name the last counts. -/
def alias? (aliases : List (Bytes × Bytes)) (label : Bytes) : Option Bytes :=
  aliases.reverse.lookup label

/-- The label that a label stands for in the end, following at most `fuel` aliases. -/
def canonicalWithin (aliases : List (Bytes × Bytes)) : Nat → Bytes → Option Bytes
  | 0, label => if (alias? aliases label).isSome then none else some label
  | fuel + 1, label =>
    match alias? aliases label with
    | some other => canonicalWithin aliases fuel other
    | none => some label

/-- The label that a label stands for in the end, unless its aliases go round in a circle. -/
def canonical? (aliases : List (Bytes × Bytes)) (label : Bytes) : Option Bytes :=
  canonicalWithin aliases aliases.length label

/-- The places of the labels of code, whose first instruction is at `place`; `seen` are the labels
in front of it. -/
def labelPlaces (seen : List (Bytes × Nat)) (place : Nat) :
    List Instruction → Except LinkError (List (Bytes × Nat))
  | [] => .ok seen
  | i :: rest =>
    if i.label.isEmpty then labelPlaces seen (place + 1) rest
    else if (seen.lookup i.label).isSome then .error (.duplicateLabel i.label)
    else labelPlaces ((i.label, place) :: seen) (place + 1) rest

/-- A jump or call with the place that it goes to; any other instruction as it is. -/
def resolveJump (aliases : List (Bytes × Bytes)) (places : List (Bytes × Nat)) (i : Instruction) :
    Except LinkError Instruction :=
  if !i.op.isJump then .ok i
  else
    match canonical? aliases i.target with
    | none => .error (.circularLabel i.target)
    | some target =>
      match places.lookup target with
      | some place => .ok { i with target, operand := UInt64.ofNat place }
      | none => .error (.undefinedLabel i.target)

/-- Links the labels of code. -/
def linkLabels (code : List Instruction) : Except LinkError (List Instruction) := do
  let (out, aliases) := mergeMarkers [] code
  let places ← labelPlaces [] 0 out
  out.mapM (resolveJump aliases places)

end StackScript
