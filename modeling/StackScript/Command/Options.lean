import StackScript.Number.Integer
import StackScript.Text.Quoted

/-!
# Options of a command

An option is an argument of one or two dashes and a name; its value follows an equals sign or, if
it needs one, is the next argument. Options end at the first argument that is none, or behind `--`.
-/

namespace StackScript

/-- The kinds of options. -/
inductive OptionKind
  /-- Takes a text. -/
  | text (default : Bytes)
  /-- Takes an unsigned integer. -/
  | number
  /-- Is on or off. -/
  | switch
  /-- Is counted, or given a number. -/
  | count

/-- An option that a command knows. -/
structure OptionSpec where
  /-- Its name. -/
  name : Bytes
  /-- Its kind. -/
  kind : OptionKind
  /-- What it is for. -/
  help : Bytes

/-- The value that an option is given. -/
inductive OptionValue
  | text (s : Bytes)
  | number (n : UInt64)
  | switch (b : Bool)
  | count
deriving DecidableEq

/-- What is wrong with options. -/
inductive OptionError
  /-- Nothing is wrong: help is asked for. -/
  | help
  | badSyntax (argument : Bytes)
  | undefined (name : Bytes)
  | needsValue (name : Bytes)
  | badSwitch (name value reason : Bytes)
  | badValue (name value reason : Bytes)
deriving DecidableEq

/-- The wording of what is wrong with options. -/
def OptionError.message : OptionError → Bytes
  | help => ""
  | badSyntax argument => "bad flag syntax: " ++ argument
  | undefined name => "flag provided but not defined: -" ++ name
  | needsValue name => "flag needs an argument: -" ++ name
  | badSwitch name value reason =>
    "invalid boolean value " ++ quoted value ++ " for -" ++ name ++ ": " ++ reason
  | badValue name value reason =>
    "invalid value " ++ quoted value ++ " for flag -" ++ name ++ ": " ++ reason

/-- The options that were given, the latest first. -/
abbrev Choices := List (Bytes × OptionValue)

namespace Choices

/-- The text of an option, or another if it was not given. -/
def text (c : Choices) (name default : Bytes) : Bytes :=
  match c.lookup name with
  | some (.text s) => s
  | _ => default

/-- The number of an option; zero if it was not given. -/
def number (c : Choices) (name : Bytes) : UInt64 :=
  match c.lookup name with
  | some (.number n) => n
  | _ => 0

/-- Whether a switch is on. -/
def isOn (c : Choices) (name : Bytes) : Bool := c.lookup name == some (.switch true)

end Choices

namespace OptionKind

/-- Whether an option must have a value. -/
def needsValue : OptionKind → Bool
  | text _ | number => true
  | switch | count => false

/-- The texts that turn a switch on or off. -/
def switchTexts : List (Bytes × Bool) :=
  [("1", true), ("t", true), ("T", true), ("TRUE", true), ("true", true), ("True", true),
    ("0", false), ("f", false), ("F", false), ("FALSE", false), ("false", false), ("False", false)]

/-- The wording for a text that is no integer, or one that does not fit. -/
def integerReason (malformed : Bytes) : IntegerError → Bytes
  | .malformed => malformed
  | .outOfRange => "value out of range"

/-- The value that a text stands for, or why it stands for none. -/
def read : OptionKind → Bytes → Except Bytes OptionValue
  | text _, s => .ok (.text s)
  | number, s =>
    match readUInt64 s with
    | .ok n => .ok (.number n)
    | .error e => .error (integerReason "parse error" e)
  | switch, s =>
    match switchTexts.lookup s with
    | some b => .ok (.switch b)
    | none => .error "parse error"
  | count, s =>
    if s == "true" then .ok .count
    else
      match readInt64 s with
      | .ok _ => .ok .count
      | .error e =>
        .error ("strconv.Atoi: parsing " ++ quoted s ++ ": " ++ integerReason "invalid syntax" e)

/-- The word for the value of an option in a list of options. -/
def word : OptionKind → Bytes
  | text _ => " string"
  | number => " uint"
  | switch | count => ""

/-- The note on the value of an option that is not given. -/
def defaultNote : OptionKind → Bytes
  | text s => if s.isEmpty then [] else " (default " ++ quoted s ++ ")"
  | _ => []

end OptionKind

/-- The lines on an option in a list of options. A short head has its text on the same line. -/
def OptionSpec.usage (o : OptionSpec) : Bytes :=
  let head : Bytes := "  -" ++ o.name ++ o.kind.word
  head ++ (if head.length ≤ 4 then "\t" else "\n    \t") ++ o.help ++ o.kind.defaultNote ++ "\n"

/-- What an argument is. -/
inductive Argument
  /-- The first argument that is no option. -/
  | operand
  /-- The end of the options. -/
  | terminator
  | malformed
  | option (name : Bytes) (value : Option Bytes)

namespace Argument

/-- The name and the value of an option without its dashes. The name has a byte at least, so an
equals sign counts only behind it. -/
def ofBody (body : Bytes) : Argument :=
  match body with
  | [] => malformed
  | first :: rest =>
    if first = 45 || first = 61 then malformed
    else
      match rest.span (· != 61) with
      | (name, []) => option (first :: name) none
      | (name, _ :: value) => option (first :: name) (some value)

/-- What an argument is. -/
def of : Bytes → Argument
  | [45, 45] => terminator
  | 45 :: 45 :: body => ofBody body
  | 45 :: b :: body => ofBody (b :: body)
  | _ => operand

end Argument

/-- Reads the options in front of arguments, behind those in `given`, and gives the rest. -/
def readOptions (known : List OptionSpec) (given : Choices) :
    List Bytes → Except OptionError (Choices × List Bytes)
  | [] => .ok (given, [])
  | arg :: rest =>
    match Argument.of arg with
    | .operand => .ok (given, arg :: rest)
    | .terminator => .ok (given, rest)
    | .malformed => .error (.badSyntax arg)
    | .option name value =>
      match known.find? (·.name == name) with
      | none => .error (if name == "help" || name == "h" then .help else .undefined name)
      | some o =>
        if o.kind.needsValue then
          match value, rest with
          | some value, rest =>
            match o.kind.read value with
            | .error reason => .error (.badValue name value reason)
            | .ok v => readOptions known ((name, v) :: given) rest
          | none, value :: rest =>
            match o.kind.read value with
            | .error reason => .error (.badValue name value reason)
            | .ok v => readOptions known ((name, v) :: given) rest
          | none, [] => .error (.needsValue name)
        else
          let value := value.getD "true"
          match o.kind.read value with
          | .error reason => .error (.badSwitch name value reason)
          | .ok v => readOptions known ((name, v) :: given) rest

end StackScript
