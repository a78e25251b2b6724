import StackScript.Toml.Read

/-!
# Tables of settings

What the statements of a settings file define together. A key is defined once. A table that only
leads to something else is implied: it may be defined later, once. A table may be given more keys
wherever it is reached, and an array of tables is entered at its last table. An array that was
written as a value gives way to a table whenever a longer key leads through it.

Tables are numbered, and a name stands for a table by its number: a table between braces is reached
from the table that it is a value in and, while it is read, from the one around it.
-/

namespace StackScript.Toml

/-- What a name stands for in a table. -/
inductive Node
  /-- A value that has no names in it. -/
  | leaf (item : Item)
  | table (number : Nat)
  /-- An array of tables, of which the last is in use. -/
  | tables (before : List Nat) (last : Nat)

/-- The names of a table in the order in which they were first defined. -/
abbrev Table := List (Bytes × Node)

/-- A table with a name standing for something; a name that it has keeps its place. -/
def Table.insert (name : Bytes) (node : Node) : Table → Table
  | [] => [(name, node)]
  | e :: rest => if e.1 == name then (name, node) :: rest else e :: insert name node rest

/-- Why a text does not define a table. -/
inductive TomlError
  /-- The text is no settings file. -/
  | malformed
  /-- Something is defined twice, or as two different things. -/
  | redefined (route : Route)
  /-- A value is not of the kind that is needed. -/
  | mismatch (route : Route)
deriving DecidableEq

/-- The wording of why a text does not define a table. -/
def TomlError.message : TomlError → Bytes
  | malformed => "toml: malformed file"
  | redefined route => "toml: key " ++ joinWith "." route ++ " has already been defined"
  | mismatch route => "toml: incompatible type for key " ++ joinWith "." route

/-- The route for which it is noted whether the value of a key is an array: that of the key, but if
its last name is empty, that of the table that it is in. -/
def Key.noted (k : Key) : Route :=
  if k.name.isEmpty && !k.above.isEmpty then k.above else k.route

/-- The table that a node leads to: an array of tables leads to its last one. -/
def Node.number? : Node → Option Nat
  | leaf _ => none
  | table n => some n
  | tables _ n => some n

/-- The tables that the statements so far define. -/
structure Draft where
  /-- The tables by their numbers. The first is the whole. -/
  tables : Array Table := #[[]]
  /-- The routes to tables that are implied. -/
  implied : List Route := []
  /-- The routes to arrays that were written as values. -/
  arrays : List Route := []

namespace Draft

/-- The table with a number. -/
def get (d : Draft) (n : Nat) : Table := d.tables[n]?.getD []

/-- The number that a new table gets, and the draft with that table. -/
def add (d : Draft) : Nat × Draft := (d.tables.size, { d with tables := d.tables.push [] })

/-- The draft with a name standing for something in the table with a number. -/
def insert (d : Draft) (n : Nat) (name : Bytes) (node : Node) : Draft :=
  { d with tables := d.tables.modify n (Table.insert name node) }

/-- The number of the table that a route leads to from the table with a number. -/
def follow? (d : Draft) (n : Nat) : Route → Option Nat
  | [] => some n
  | name :: route => do
    let node ← (d.get n).lookup name
    d.follow? (← node.number?) route

/-- The draft with a table implied. -/
def imply (d : Draft) (route : Route) : Draft := { d with implied := route :: d.implied }

/-- The draft with a table no longer implied. -/
def settle (d : Draft) (route : Route) : Draft :=
  { d with implied := d.implied.filter (· != route) }

/-- The draft with a note whether what a route leads to is an array. -/
def note (d : Draft) (route : Route) (isArray : Bool) : Draft :=
  let others := d.arrays.filter (· != route)
  { d with arrays := if isArray then route :: others else others }

/-- Defines a key. An implied table is thereby defined and keeps its contents, but what was noted as
an array is replaced. -/
def define (d : Draft) (key : Key) (node : Node) : Except TomlError Draft :=
  match d.follow? 0 key.above with
  | none => .error (.redefined key.above)
  | some n =>
    if ((d.get n).lookup key.name).isNone then .ok (d.insert n key.name node)
    else if !d.implied.contains key.route then .error (.redefined key.route)
    else if d.arrays.contains key.route then .ok ((d.settle key.route).insert n key.name node)
    else .ok (d.settle key.route)

/-- Makes the tables that are missing on a route from the table with a number, as implied ones, and
gives the number of the last; `done` is the route to where it starts. -/
def establish (d : Draft) (n : Nat) (done : Route) : Route → Except TomlError (Nat × Draft)
  | [] => .ok (n, d)
  | name :: route =>
    let whole := done ++ [name]
    match (d.get n).lookup name with
    | none =>
      let (k, d) := d.add
      ((d.insert n name (.table k)).imply whole).establish k whole route
    | some node =>
      match node.number? with
      | none => .error (.redefined whole)
      | some k => d.establish k whole route

/-- Defines the table with a key. -/
def openTable (d : Draft) (key : Key) : Except TomlError Draft := do
  let (_, d) ← d.establish 0 [] key.above
  let (k, d) := d.add
  d.define key (.table k)

/-- Puts a new table at the end of the array of tables with a key. -/
def openElement (d : Draft) (key : Key) : Except TomlError Draft := do
  let (n, d) ← d.establish 0 [] key.above
  let (k, d) := d.add
  match (d.get n).lookup key.name with
  | none => .ok (d.insert n key.name (.tables [] k))
  | some (.tables before last) => .ok (d.insert n key.name (.tables (before ++ [last]) k))
  | some _ => .error (.redefined key.route)

/-- Enters the tables in front of a key in the table that a route leads to. -/
def enterAbove (d : Draft) (route : Route) : Route → Except TomlError Draft
  | [] => .ok d
  | name :: rest => do
    let d ← (d.imply (route ++ [name])).openTable ⟨route, name⟩
    d.enterAbove (route ++ [name]) rest

/-- Puts a node into the table with a number under a key. Tables that are missing in front of it
are made, and nothing but a table may be there. -/
def place (d : Draft) (n : Nat) (name : Bytes) (node : Node) :
    Route → Except TomlError Draft
  | [] => .ok (d.insert n name node)
  | step :: route =>
    match (d.get n).lookup step with
    | none =>
      let (k, d) := d.add
      (d.insert n step (.table k)).place k name node route
    | some (.table k) => d.place k name node route
    | some _ => .error (.redefined [step])

mutual

/-- Enters the tables in an item that a key is given, and gives what the item stands for. A table
between braces is entered where its key leads to, and is put together besides as a table of its
own. -/
def enterItem (d : Draft) (key : Key) (inArray : Bool) : Item → Except TomlError (Node × Draft)
  | .inline pairs => do
    let d := d.imply key.route
    let d ← if inArray then d.openElement key else d.openTable key
    let (own, d) := d.add
    let d ← d.enterPairs key.route (some own) pairs
    return (.table own, d)
  | .array items => do
    let d ← (d.note key.noted true).enterItems key items
    return (.leaf (.array items), d)
  | item => .ok (.leaf item, d)

/-- Enters the tables in the items of an array that a key is given. -/
def enterItems (d : Draft) (key : Key) : List Item → Except TomlError Draft
  | [] => .ok d
  | item :: items => do
    let (_, d) ← d.enterItem key true item
    d.enterItems key items

/-- Enters pairs into the table that a route leads to, and into the table that is put together from
them, if there is one. -/
def enterPairs (d : Draft) (route : Route) (own : Option Nat) :
    List (Key × Item) → Except TomlError Draft
  | [] => .ok d
  | (key, item) :: pairs => do
    let d ← d.enterAbove route key.above
    let whole : Key := ⟨route ++ key.above, key.name⟩
    let (node, d) ← d.enterItem whole false item
    let d ← d.define whole node
    let d := d.note whole.noted item.isArray
    let d ← own.elim (.ok d) fun n => d.place n key.name node key.above
    d.enterPairs route own pairs

end

/-- Enters statements; pairs go into the table that a route leads to. -/
def enter (d : Draft) (route : Route) : List Statement → Except TomlError Draft
  | [] => .ok d
  | .table key :: rest => do
    let d ← d.openTable key
    (d.note key.route false).enter key.route rest
  | .element key :: rest => do
    let d ← d.openElement key
    (d.note key.route false).enter key.route rest
  | .pair key item :: rest => do
    let d ← d.enterPairs route none [(key, item)]
    d.enter route rest

end Draft

/-- The tables that a settings file defines. -/
structure Document where
  /-- The tables by their numbers. The first is the whole. -/
  tables : Array Table

namespace Document

/-- The table with a number. -/
def get (d : Document) (n : Nat) : Table := d.tables[n]?.getD []

/-- The whole. -/
def root (d : Document) : Table := d.get 0

end Document

/-- The tables that a settings file defines. -/
def read (file : Bytes) : Except TomlError Document := do
  match readStatements? file with
  | none => .error .malformed
  | some statements => return ⟨(← ({} : Draft).enter [] statements).tables⟩

end StackScript.Toml
