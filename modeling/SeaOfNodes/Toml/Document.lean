/-
  SeaOfNodes.Toml.Document

  From statements to nested tables.  A key is defined once.  Tables that come
  into being only because a longer key passes through them are *implied*: they
  may be defined once more.  A document also remembers every key in the order in
  which it was written.
-/
import SeaOfNodes.Toml.Reader

namespace SeaOfNodes.Toml

/-- What a key of a table holds. -/
inductive Item where
  | leaf (value : Value)
  | table (entries : List (String × Item))
  /-- An array of tables, of which the last is open. -/
  | tables (elements : List (List (String × Item)))

/-- The keys of a table. -/
abbrev Entries := List (String × Item)

/-- Put an item under a key that is there already, in its place. -/
def setEntry (key : String) (item : Item) : Entries → Entries
  | [] => []
  | (k, n) :: rest => if k = key then (k, item) :: rest else (k, n) :: setEntry key item rest

/-- Change the table that a path leads to.  Through an array of tables the path
    leads to its last one. -/
def within (change : Entries → Option Entries) : Path → Entries → Option Entries
  | [], entries => change entries
  | key :: path, entries =>
    match entries.lookup key with
    | some (.table inner) => do
      return setEntry key (.table (← within change path inner)) entries
    | some (.tables elements) => do
      let last ← elements.getLast?
      return setEntry key (.tables (elements.dropLast ++ [← within change path last])) entries
    | _ => none

/-- The item that a path leads to. -/
def itemAt? : Path → Entries → Option Item
  | [], _ => none
  | [key], entries => entries.lookup key
  | key :: path, entries =>
    match entries.lookup key with
    | some (.table inner) => itemAt? path inner
    | some (.tables elements) => elements.getLast?.bind (itemAt? path)
    | _ => none

/-- The tables built so far. -/
structure Document where
  root : Entries
  /-- Tables that may be defined once more. -/
  implied : List Path
  /-- Keys whose value was last written as an array. -/
  arrays : List Path
  /-- The keys as they were written. -/
  keys : List Path

namespace Document

/-- The document without keys. -/
def empty : Document := ⟨[], [], [], []⟩

/-- Mark a table as implied. -/
def imply (d : Document) (path : Path) : Document :=
  if d.implied.contains path then d else { d with implied := path :: d.implied }

/-- Note whether the value of a key was written as an array. -/
def note (d : Document) (path : Path) (isArray : Bool) : Document :=
  let others := d.arrays.filter (· != path)
  { d with arrays := if isArray then path :: others else others }

/-- Note that a key was written. -/
def record (d : Document) (path : Path) : Document := { d with keys := d.keys ++ [path] }

/-- Define an implied key once more, which it allows once. -/
def settle (d : Document) (path : Path) : Option Document :=
  if d.implied.contains path then some { d with implied := d.implied.filter (· != path) } else none

/-- Define a key of a table.  An implied one may be defined again: it keeps what
    it holds, except that an array gives way to what is defined now. -/
def put (d : Document) (context : Path) (key : String) (item : Item) : Option Document :=
  let path := context ++ [key]
  match itemAt? path d.root with
  | none => do
    return { d with root := ← within (fun es => some (es ++ [(key, item)])) context d.root }
  | some _ => do
    let d ← d.settle path
    if d.arrays.contains path then
      return { d with root := ← within (fun es => some (setEntry key item es)) context d.root }
    else return d

/-- Bring the tables along a path into being, below those already `passed`. -/
def passThrough (d : Document) (passed : Path) : Path → Option Document
  | [] => some d
  | key :: path =>
    let here := passed ++ [key]
    match itemAt? here d.root with
    | some (.leaf _) => none
    | some _ => passThrough d here path
    | none =>
      match within (fun es => some (es ++ [(key, .table [])])) passed d.root with
      | none => none
      | some root => passThrough ({ d with root := root }.imply here) here path

/-- Append a table to an array of tables. -/
def appendTable (key : String) (entries : Entries) : Option Entries :=
  match entries.lookup key with
  | none => some (entries ++ [(key, .tables [[]])])
  | some (.tables elements) => some (setEntry key (.tables (elements ++ [[]])) entries)
  | some _ => none

/-- Open the table of a path, or with `element` a new table of the array there. -/
def openTable (d : Document) (path : Path) (element : Bool) : Option Document := do
  let d ← d.passThrough [] path.dropLast
  let key ← path.getLast?
  if element then return { d with root := ← within (appendTable key) path.dropLast d.root }
  else d.put path.dropLast key (.table [])

/-- Open the tables that a key with points passes through; the answer is the
    table its last part belongs to. -/
def openImplied (d : Document) (context : Path) : Path → Option (Path × Document)
  | [] => some (context, d)
  | key :: path => do
    let context := context ++ [key]
    openImplied (← (d.imply context).openTable context false) context path

/-- Define a key whose value was prepared.  The tables of a value between braces
    are there already. -/
def putValue (d : Document) (context : Path) (key : String) : Value → Option Document
  | .table _ => d.settle (context ++ [key])
  | value => d.put context key (.leaf value)

/-- Whether a value is an array. -/
def isArray : Value → Bool
  | .array _ => true
  | _ => false

mutual

/-- Build the tables inside a value that a key is about to get. -/
def prepare (context : Path) (key : String) (inArray : Bool) (d : Document) :
    Value → Option Document
  | .array items => prepareAll context key (d.note (context ++ [key]) true) items
  | .table entries => do
    let here := context ++ [key]
    assignAll here (← (d.imply here).openTable here inArray) entries
  | _ => some d

/-- Build the tables inside the items of an array. -/
def prepareAll (context : Path) (key : String) (d : Document) : List Value → Option Document
  | [] => some d
  | item :: items => do
    prepareAll context key (← prepare context key true d item) items

/-- Give keys of a table their values, in order. -/
def assignAll (context : Path) (d : Document) : List (Path × Value) → Option Document
  | [] => some d
  | (path, value) :: rest => do
    let (inner, d) ← d.openImplied context path.dropLast
    let key ← path.getLast?
    let d ← prepare inner key false (d.record (inner ++ [key])) value
    let d ← d.putValue inner key value
    assignAll context (d.note (inner ++ [key]) (isArray value)) rest

end

/-- Carry out statements, with the table open that a header named last. -/
def runAll (d : Document) (context : Path) : List Statement → Option Document
  | [] => some d
  | .table path :: rest => do
    let d ← d.openTable path false
    runAll ((d.note path false).record path) path rest
  | .element path :: rest => do
    let d ← d.openTable path true
    runAll ((d.note path false).record path) path rest
  | .assign path value :: rest => do
    runAll (← assignAll context d [(path, value)]) context rest

/-- The document of a file. -/
def parse? (text : String) : Option Document := do
  runAll empty [] (← Toml.parse? text)

end Document

end SeaOfNodes.Toml
