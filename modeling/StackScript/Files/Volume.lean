import StackScript.Files.Access
import StackScript.Files.Path

/-!
# Volumes

A file system as a value: what stands at each place, the working directory, what was written to the
standard output, and the attempts that it refuses for reasons of its own. A place is the list of
names that lead to it from the root, so every place has one spelling, while a path may reach it in
many ways. `at?_insert` and `at?_erase` say what changes of places do to what stands there.
-/

namespace StackScript

/-- What stands at a place. -/
inductive Entry
  | directory
  | file (data : Bytes) (mode : Nat)
deriving DecidableEq

/-- A place in a volume: the names that lead to it from the root. -/
abbrev Place := List Bytes

/-- A file system. -/
structure Volume where
  /-- The entries, with at most one at each place that counts: the first. -/
  entries : List (Place × Entry) := []
  /-- The working directory. -/
  current : Bytes := "/"
  /-- What was written to the standard output. -/
  printed : Bytes := []
  /-- The reason for which an attempt is refused, if it is. -/
  refusal : FileAction → Option Reason := fun _ => none

namespace Volume

/-- What stands at a place. The root is always a directory. -/
def at? (v : Volume) (p : Place) : Option Entry :=
  if p = [] then some .directory else v.entries.lookup p

/-- The volume with an entry at a place. -/
def insert (v : Volume) (p : Place) (e : Entry) : Volume :=
  { v with entries := (p, e) :: v.entries.filter (·.1 != p) }

/-- The volume with nothing at a place. -/
def erase (v : Volume) (p : Place) : Volume :=
  { v with entries := v.entries.filter (·.1 != p) }

/-- Taking away what stands at a place changes nothing elsewhere. -/
theorem lookup_filter_ne (l : List (Place × Entry)) (p q : Place) :
    (l.filter (·.1 != p)).lookup q = if q = p then none else l.lookup q := by
  induction l with
  | nil => simp
  | cons x l ih =>
    obtain ⟨k, e⟩ := x
    by_cases hk : k = p
    · subst hk
      by_cases hq : q = k
      · simp [hq] at ih ⊢
        exact ih
      · have : (q == k) = false := by simpa using hq
        simp [List.lookup_cons, ih, hq, this]
    · by_cases hq : q = k
      · subst hq
        simp [hk]
      · have : (q == k) = false := by simpa using hq
        simp [List.lookup_cons, hk, ih, this]

/-- An entry stands at its place, and all others stand where they stood. -/
theorem at?_insert (v : Volume) {p : Place} (hp : p ≠ []) (e : Entry) (q : Place) :
    (v.insert p e).at? q = if q = p then some e else v.at? q := by
  by_cases hq : q = p
  · subst hq
    simp [at?, insert, hp]
  · have h : (q == p) = false := by simpa using hq
    simp [at?, insert, List.lookup_cons, lookup_filter_ne, hq, h]

/-- Nothing stands at an erased place, and all others stand where they stood. -/
theorem at?_erase (v : Volume) {p : Place} (hp : p ≠ []) (q : Place) :
    (v.erase p).at? q = if q = p then none else v.at? q := by
  by_cases hq : q = p
  · subst hq
    simp [at?, erase, hp, lookup_filter_ne]
  · simp [at?, erase, lookup_filter_ne, hq]

/-- The volume with a directory at a place and at those that lead to it, unless something stands
there. -/
def addDirectory (v : Volume) (p : Place) : Volume :=
  (List.range (p.length + 1)).foldl (fun v n =>
    if (v.at? (p.take n)).isSome then v else v.insert (p.take n) .directory) v

/-- The volume with a file at a place, and directories at those that lead to it. -/
def addFile (v : Volume) (p : Place) (data : Bytes) (mode : Nat) : Volume :=
  (v.addDirectory p.dropLast).insert p (.file data mode)

/-- The most bytes that a name can have. -/
def maxName : Nat := 255

/-- The most bytes that a path can have. -/
def maxPath : Nat := 4095

/-- The place that a name leads to from a place, if that is a directory. Nothing need stand at the
place that it leads to. -/
def enter (v : Volume) (p : Place) (name : Bytes) : Except Reason Place :=
  match v.at? p with
  | none => .error .notFound
  | some (.file ..) => .error .notDirectory
  | some .directory =>
    if Path.isHere name then .ok p
    else if Path.isUp name then .ok p.dropLast
    else if maxName < name.length then .error .longName
    else .ok (p ++ [name])

/-- The place that names lead to from a place. -/
def walk (v : Volume) (p : Place) (names : List Bytes) : Except Reason Place :=
  names.foldlM v.enter p

/-- The place that a path leads to. Its directory must be there; the last name need not. -/
def target (v : Volume) (path : Bytes) : Except Reason Place :=
  if path.isEmpty then .error .notFound
  else if path.contains 0 then .error .badName
  else if maxPath < path.length then .error .longName
  else if Path.isAbsolute path then v.walk [] (path.splitOn Path.slash)
  else do v.walk (← v.walk [] (v.current.splitOn Path.slash)) (path.splitOn Path.slash)

/-- What stands at a path. -/
def find (v : Volume) (path : Bytes) : Except Reason Entry := do
  match v.at? (← v.target path) with
  | some e => .ok e
  | none => .error .notFound

/-- The contents of the file at a path. -/
def read (v : Volume) (path : Bytes) : Except FileError Bytes :=
  match v.refusal (.openFile path), v.find path with
  | some r, _ => .error ⟨.openFile path, r⟩
  | none, .error r => .error ⟨.openFile path, r⟩
  | none, .ok .directory => .error ⟨.readFile path, .isDirectory⟩
  | none, .ok (.file data _) =>
    match v.refusal (.readFile path) with
    | some r => .error ⟨.readFile path, r⟩
    | none => .ok data

/-- The path of the temporary file with a number. -/
def temporaryPath (directory stem : Bytes) (n : Nat) : Bytes :=
  (if endsWith "/" directory then directory else directory ++ "/") ++ stem ++ decimal n ++ ".tmp"

/-- The mode of a file that was just made. -/
def privateMode : Nat := 0o600

/-- Makes an empty file at a path where nothing stands. -/
def make (v : Volume) (path : Bytes) : Except FileError Volume :=
  match v.refusal (.openFile path), v.target path with
  | some r, _ => .error ⟨.openFile path, r⟩
  | none, .error r => .error ⟨.openFile path, r⟩
  | none, .ok p =>
    match v.at? p with
    | some _ => .error ⟨.openFile path, .inUse⟩
    | none => .ok (v.insert p (.file [] privateMode))

/-- Makes a temporary file with one of `tries` numbers from `n` on: the first that is not in use. -/
def makeNumbered (v : Volume) (directory stem : Bytes) :
    Nat → Nat → Except FileError (Bytes × Volume)
  | 0, _ => .error ⟨.makeTemporary (stem ++ "*.tmp"), .inUse⟩
  | tries + 1, n =>
    let path := temporaryPath directory stem n
    match v.make path with
    | .ok v => .ok (path, v)
    | .error e =>
      if e.reason = .inUse then makeNumbered v directory stem tries (n + 1) else .error e

/-- How many numbers are tried for a temporary file. -/
def maxTries : Nat := 10000

/-- The first number that is tried; all have ten digits. -/
def firstNumber : Nat := 1000000000

/-- Makes a temporary file. -/
def makeTemporary (v : Volume) (directory stem : Bytes) : Except FileError (Bytes × Volume) :=
  if stem.contains Path.slash then .error ⟨.makeTemporary (stem ++ "*.tmp"), .badPattern⟩
  else makeNumbered v directory stem maxTries firstNumber

/-- Changes the file at a path that was made. -/
def change (v : Volume) (action : FileAction) (path : Bytes) (f : Bytes → Nat → Entry) :
    Except FileError Volume :=
  match v.refusal action, v.target path with
  | some r, _ => .error ⟨action, r⟩
  | none, .error r => .error ⟨action, r⟩
  | none, .ok p =>
    match v.at? p with
    | none => .error ⟨action, .notFound⟩
    | some .directory => .error ⟨action, .isDirectory⟩
    | some (.file data mode) => .ok (v.insert p (f data mode))

/-- Writes the contents of a file. -/
def write (v : Volume) (path data : Bytes) : Except FileError Volume :=
  v.change (.writeFile path) path fun _ mode => .file data mode

/-- Sets the mode of a file; only the bits of the permissions count. -/
def setMode (v : Volume) (path : Bytes) (mode : Nat) : Except FileError Volume :=
  v.change (.setMode path) path fun data _ => .file data (mode % 0o1000)

/-- Ends the work on a file. -/
def close (v : Volume) (path : Bytes) : Except FileError Unit :=
  match v.refusal (.closeFile path) with
  | some r => .error ⟨.closeFile path, r⟩
  | none => .ok ()

/-- Moves a file to a path where no directory stands. -/
def rename (v : Volume) (source target : Bytes) : Except FileError Volume :=
  let action := FileAction.renameFile source target
  match v.refusal action, v.target source, v.target target with
  | some r, _, _ => .error ⟨action, r⟩
  | none, .error r, _ => .error ⟨action, r⟩
  | none, _, .error r => .error ⟨action, r⟩
  | none, .ok p, .ok q =>
    match v.at? p, v.at? q with
    | none, _ => .error ⟨action, .notFound⟩
    | _, some .directory => .error ⟨action, .inUse⟩
    | some e, _ => .ok ((v.erase p).insert q e)

/-- Takes away the file at a path. -/
def remove (v : Volume) (path : Bytes) : Volume :=
  match v.target path with
  | .error _ => v
  | .ok p =>
    match v.at? p with
    | some (.file ..) => v.erase p
    | _ => v

/-- The working directory, unless it cannot be found. -/
def workingDirectory (v : Volume) : Except FileError Bytes :=
  match v.refusal .findDirectory with
  | some r => .error ⟨.findDirectory, r⟩
  | none => .ok v.current

/-- Writes to the standard output. -/
def print (v : Volume) (data : Bytes) : Except FileError Volume :=
  match v.refusal (.writeFile standardOutputName) with
  | some r => .error ⟨.writeFile standardOutputName, r⟩
  | none => .ok { v with printed := v.printed ++ data }

/-- Goes on with the volume that a step gives, or with the same one if it fails. -/
def commit (step : Volume → Except FileError Volume) : StateM Volume (Except FileError Unit) :=
  fun v =>
    match step v with
    | .ok v => (.ok (), v)
    | .error e => (.error e, v)

instance : Files (StateM Volume) where
  workingDirectory := return (← get).workingDirectory
  isPresent path := return ((← get).find path).isOk
  read path := return (← get).read path
  makeTemporary directory stem := fun v =>
    match v.makeTemporary directory stem with
    | .ok (path, v) => (.ok path, v)
    | .error e => (.error e, v)
  write path data := commit fun v => v.write path data
  setMode path mode := commit fun v => v.setMode path mode
  close path := return (← get).close path
  rename source target := commit fun v => v.rename source target
  remove path := modify fun v => v.remove path
  print data := commit fun v => v.print data

end Volume

end StackScript
