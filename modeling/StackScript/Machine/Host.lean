import StackScript.Machine.World
import StackScript.Value.Operator

/-!
# Host functions

The functions that a program can call but that are not written in it. The place of a function in
its table is the index by which programs call it.
-/

namespace StackScript

/-- A function that the host provides. -/
structure HostFunction where
  /-- Its name. -/
  name : Bytes
  /-- The fewest arguments that a call may pass. -/
  minimum : Int
  /-- What a call with the given arguments does. -/
  run : List Cell → Host Cell

namespace Host

/-- The value in a cell that must hold one. -/
def value (c : Cell) : Host Value :=
  match c with
  | some v => return v
  | none => throw .missing

/-- The text of the value in a cell. -/
def text (c : Cell) : Host Bytes := do
  let v ← value c
  return v.text (← get).store

/-- Writes a text, unless the output has no room for it. -/
def write (s : Bytes) : Host Unit := fun w =>
  if w.console.hasRoom s then
    match w with
    | ⟨store, globals, console, generator, clock⟩ =>
      .ok () ⟨store, globals, console.write s, generator, clock⟩
  else .error .outputFull w

/-- Writes the texts of cells one after the other. -/
def writeAll : List Cell → Host Unit
  | [] => return
  | c :: cs => do
    write (← text c)
    writeAll cs

/-- Gives what a draw from the generator makes of it. -/
def random (draw : Generator → α × Generator) : Host α := fun w =>
  let (a, g) := draw w.generator
  .ok a { w with generator := g }

/-- Writes its arguments. -/
def output (args : List Cell) : Host Cell := do
  writeAll args
  return some (.boolean false)

/-- Writes its arguments and reads a line. -/
def input (args : List Cell) : Host Cell := do
  writeAll args
  let w ← get
  match w.console.readLine? with
  | some (line, console) =>
    set { w with console }
    return some (.string line)
  | none => throw .inputFailed

/-- What `f` makes of the first argument, and `default` without arguments. -/
def ofFirst (default : Value) (f : Value → Value) : List Cell → Host Cell
  | [] => return some default
  | c :: _ => do return some (f (← value c))

/-- A dimension of the array in the first argument, and zero if it holds none. -/
def dimension (f : Grid → Nat) : List Cell → Host Cell
  | some (.array key) :: _ => do
    return some (.integer (Int64.ofNat (f ((← get).store.grid key))))
  | _ => return some (.integer 0)

/-- A random number between two values: an integer if the flag says so, and a real number
otherwise. -/
def randomBetween (integer : Bool) (lo hi : Cell) : Host Cell := do
  let a ← value lo
  let b ← value hi
  if integer then
    return some (.integer (← random (Generator.integerBetween a.toInteger b.toInteger)))
  else return some (.real (← random (Generator.realBetween a.toReal b.toReal)))

/-- A random number: from zero to one without arguments, from zero to the argument with one, and
between the first two with more. It is an integer if the first argument is. -/
def randomNumber : List Cell → Host Cell
  | [] => do return some (.real (← random Generator.unit))
  | [c] => do randomBetween (← value c).isInteger (some (.integer 0)) c
  | c :: d :: _ => do randomBetween (← value c).isInteger c d

/-- The numbers of the colours that a console knows. -/
def colours : List (Bytes × Nat) :=
  [("Black", 0), ("DarkRed", 1), ("DarkGreen", 2), ("DarkYellow", 3), ("DarkBlue", 4),
    ("DarkMagenta", 5), ("DarkCyan", 6), ("Gray", 7), ("DarkGray", 60), ("Red", 61), ("Green", 62),
    ("Yellow", 63), ("Blue", 64), ("Magenta", 65), ("Cyan", 66), ("White", 67)]

/-- Sets a colour of the console by its name; an unknown name changes nothing. -/
def setColour (base : Nat) : List Cell → Host Cell
  | [] => return some (.string "")
  | c :: _ => do
    let name ← text c
    match colours.lookup name with
    | some n => write ("\x1b[" ++ decimal (base + n) ++ "m")
    | none => pure ()
    return some (.string name)

/-- Sets the title of the console's window. -/
def setTitle : List Cell → Host Cell
  | [] => return some (.string "")
  | c :: _ => do
    write ("\x1b]0;" ++ (← text c) ++ "\x07")
    return c

/-- The lowest sixteen bits of the integer that a value stands for. -/
def coordinate (v : Value) : Nat := v.toInteger.toUInt64.toNat % 0x10000

/-- Moves the cursor to a column and a row; without exactly these two arguments it stays. -/
def setCursor : List Cell → Host Cell
  | [x, y] => do
    let col := coordinate (← value x)
    let row := coordinate (← value y)
    write ("\x1b[" ++ decimal row ++ ";" ++ decimal col ++ "H")
    return some (.boolean true)
  | _ => return some (.boolean true)

/-- The name of the key that is pressed: there is never one. -/
def readKey (_ : List Cell) : Host Cell := return some (.string "None")

/-- The global variable of the given name. -/
def getGlobal : List Cell → Host Cell
  | [] => return some (.boolean false)
  | c :: _ => do
    let name ← text c
    return (← get).global name

/-- Sets the global variable of the given name. -/
def setGlobal : List Cell → Host Cell
  | c :: v :: _ => do
    let name ← text c
    modify fun w => w.setGlobal name v
    return v
  | _ => return some (.boolean false)

/-- The time in milliseconds that the clock shows when it is asked. -/
def time (_ : List Cell) : Host Cell := fun w =>
  .ok (some (.integer (Int64.ofInt w.clock.now.millis))) { w with clock := w.clock.next }

/-- The end of a line. -/
def newline (_ : List Cell) : Host Cell := return some (.string "\n")

/-- The standard functions in the order of their indices. -/
def standard : List HostFunction :=
  [⟨"输出", 0, output⟩,
    ⟨"输入", 0, input⟩,
    ⟨"转为数字", 0, ofFirst (.real .zero) fun v => .real v.toReal⟩,
    ⟨"转为整数字", 0, ofFirst (.integer 0) fun v => .integer v.toInteger⟩,
    ⟨"转为一句话", 0, fun
      | [] => return some (.string "")
      | c :: _ => do return some (.string (← text c))⟩,
    ⟨"向下取整", 0, ofFirst (.integer 0) fun v => .integer v.toReal.floor.toInt64⟩,
    ⟨"向上取整", 0, ofFirst (.integer 0) fun v => .integer v.toReal.ceil.toInt64⟩,
    ⟨"取阵列的行数", 0, dimension Grid.rows⟩,
    ⟨"取阵列的列数", 0, dimension Grid.cols⟩,
    ⟨"随机数", 0, randomNumber⟩,
    ⟨"设置窗口标题", 0, setTitle⟩,
    ⟨"设置窗口背景色", 0, setColour 40⟩,
    ⟨"设置窗口前景色", 0, setColour 30⟩,
    ⟨"设置窗口光标位置", 0, setCursor⟩,
    ⟨"读取按键值", 0, readKey⟩,
    ⟨"获取全局变量", 0, getGlobal⟩,
    ⟨"设置全局变量", 0, setGlobal⟩,
    ⟨"取当前时间", 0, time⟩,
    ⟨"换行符", 0, newline⟩]

end Host

namespace HostFunction

/-- The line that declares a host function in an import file. -/
def declaration (f : HostFunction) : Bytes :=
  "host [" ++ f.name ++ "] " ++ decimalInt f.minimum ++ "\n"

/-- The import file that gives each function of a table its index. -/
def declarations (table : List HostFunction) : Bytes := table.flatMap declaration

/-- Writes the import file of a table line by line, as far as the output takes the lines. -/
def writeDeclarations : List HostFunction → Host Unit
  | [] => return
  | f :: rest => do
    Host.write f.declaration
    writeDeclarations rest

end HostFunction

end StackScript
