import Std.Time.DateTime.Timestamp
import StackScript.Command.Tool
import StackScript.Files.Volume

/-!
# The command line

Gives the tool its arguments, the file system and the console. A program that is run is run one
instruction at a time, so that what it writes is seen at once, the time is that of the moment, and
input is only waited for when it is asked for.
-/

namespace StackScript

namespace Terminal

/-- The reason behind an error of the system. -/
def reason : IO.Error → Reason
  | .noFileOrDirectory .. => .notFound
  | .alreadyExists .. => .inUse
  | e => .other (utf8 e.toString)

/-- A path as the system takes it. -/
def systemPath (path : Bytes) : String := (String.fromUTF8? path.toByteArray).getD ""

/-- Whether a directory stands at a path. -/
def isDirectory (path : Bytes) : IO Bool := do
  try (← IO.FS.realPath (systemPath path)).isDir
  catch _ => return false

/-- An attempt on the system's files. -/
def attemptOn (action : FileAction) (step : IO α) : IO (Except FileError α) := do
  try return .ok (← step)
  catch e => return .error ⟨action, reason e⟩

/-- The rights in a mode, from the lowest bit of their group on. -/
def rights (mode shift : Nat) : IO.AccessRight where
  read := mode.testBit (shift + 2)
  write := mode.testBit (shift + 1)
  execution := mode.testBit shift

/-- Makes a file under the first number that is not in use. -/
partial def makeFrom (directory stem : Bytes) (n : Nat) : IO (Except FileError Bytes) := do
  let path := Volume.temporaryPath directory stem n
  try
    let _ ← IO.FS.Handle.mk (systemPath path) .writeNew
    return .ok path
  catch
    | .alreadyExists .. => makeFrom directory stem (n + 1)
    | e => return .error ⟨.openFile path, reason e⟩

instance : Files IO where
  workingDirectory := attemptOn .findDirectory do return utf8 (← IO.currentDir).toString
  isPresent path := do
    try (← IO.FS.realPath (systemPath path)).pathExists
    catch _ => return false
  read path := do
    if ← isDirectory path then return .error ⟨.readFile path, .isDirectory⟩
    attemptOn (.openFile path) do return (← IO.FS.readBinFile (systemPath path)).toList
  makeTemporary directory stem := do
    if stem.contains Path.slash then return .error ⟨.makeTemporary (stem ++ "*.tmp"), .badPattern⟩
    makeFrom directory stem (← IO.rand Volume.firstNumber (2 * Volume.firstNumber))
  write path data :=
    attemptOn (.writeFile path) (IO.FS.writeBinFile (systemPath path) data.toByteArray)
  setMode path mode := attemptOn (.setMode path) <|
    IO.setAccessRights (systemPath path) ⟨rights mode 6, rights mode 3, rights mode 0⟩
  close _ := return .ok ()
  rename source target := do
    if ← isDirectory target then return .error ⟨.renameFile source target, .inUse⟩
    attemptOn (.renameFile source target) (IO.FS.rename (systemPath source) (systemPath target))
  remove path := do
    try IO.FS.removeFile (systemPath path)
    catch _ => return
  print data := attemptOn (.writeFile standardOutputName) do
    (← IO.getStdout).write data.toByteArray
    (← IO.getStdout).flush

/-- Shows the end of a command. -/
def finish (o : Outcome) : IO UInt32 := do
  (← IO.getStdout).write o.output.toByteArray
  (← IO.getStderr).write o.errors.toByteArray
  return o.exit.toUInt32

/-- Shows what a program has written, and forgets it. -/
def flush (s : State) : IO State := do
  let out ← IO.getStdout
  out.write s.world.console.output.toList.toByteArray
  out.flush
  return { s with world.console.output := #[] }

/-- Reads up to the end of a line, and says whether the input has ended. -/
partial def readLines (read : ByteArray) : IO (Bytes × Bool) := do
  let chunk ← (← IO.getStdin).read 4096
  let read := read ++ chunk
  if chunk.isEmpty then return (read.toList, true)
  if chunk.toList.getLast? == some 10 then return (read.toList, false)
  readLines read

/-- The state with more input, as far as there is any. -/
def feed (s : State) : IO State := do
  let (input, ended) ← readLines .empty
  return { s with world.console := { s.world.console with input, inputFails := !ended } }

/-- The present time. -/
def clock : IO Instant := do
  let nanos := (← Std.Time.Timestamp.now).toNanosecondsSinceUnixEpoch.toInt
  return .ofUnix (nanos / 1000000000) (nanos % 1000000000)

/-- The state for the next instruction: a call of the host finds the present time on the clock. -/
def refresh (p : Program) (s : State) : IO State := do
  if p.code[s.place]?.map Instruction.op ≠ some .callHost then return s
  let now ← clock
  return { s with world.clock.readings := fun _ => now }

/-- Runs a program for one instruction. When the input at hand is used up, what was written so far
is shown, more is read, and the instruction starts over. -/
def advance (p : Program) (hosts : Array HostFunction) (s : State) :
    IO (EStateM.Result RunError State Int64) := do
  let s ← refresh p s
  match runWithin p hosts 1 s with
  | .error (.fault _ _ (.host _ .inputFailed)) after =>
    let shown := after.world.console.output.size
    let _ ← flush after
    let unshown (t : State) : State :=
      { t with world.console.output := t.world.console.output.drop shown }
    match runWithin p hosts 1 (← feed s) with
    | .ok code t => return .ok code (unshown t)
    | .error e t => return .error e (unshown t)
  | r => return r

/-- Runs a program to its end; a run that is cancelled after an instruction goes on. -/
partial def execute (p : Program) (hosts : Array HostFunction) (last : Bytes) (s : State) :
    IO UInt32 := do
  match ← advance p hosts s with
  | .error .cancelled s =>
    if s.world.console.output.isEmpty then execute p hosts last s
    else execute p hosts last (← flush s)
  | r => finish ((Outcome.ofRun r).followedBy last)

/-- Does what is left to do for a command. -/
def perform : Action → IO UInt32
  | .finish o => finish o
  | .execute p w last =>
    let w := { w with console.inputFails := true }
    execute p Host.standard.toArray last (.start p.code.size w)

/-- The surroundings of a command: its input is read when it is asked for. -/
def surroundings : IO Surroundings := do
  let now ← clock
  return {
    clock := .still now
    seed := UInt64.ofInt (now.seconds * 1000000000 + now.nanos)
    input := []
    terminal := ← (← IO.getStdout).isTty }

end Terminal

end StackScript

/-- The tool. -/
def main (args : List String) : IO UInt32 := do
  let s ← StackScript.Terminal.surroundings
  let action : StackScript.Action ← StackScript.Tool.run s (args.map StackScript.utf8)
  StackScript.Terminal.perform action
