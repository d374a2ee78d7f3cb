/-
  SeaOfNodes.Settings.Load

  Settings from a file.  Keys match whatever their case; a key that is absent
  keeps its standard value, one of the wrong type makes the file unreadable, and
  one that means nothing is refused by name.
-/
import SeaOfNodes.Files.Disk
import SeaOfNodes.Settings.Basic
import SeaOfNodes.Toml.Document

namespace SeaOfNodes.Settings

open Toml (Entries Item Path Value)

/-! ## Reading the tables -/

/-- A character with its case taken away.  The two letters outside ASCII are the
    long s and the Kelvin sign. -/
def foldCase (c : Char) : Char :=
  if 'A' ≤ c ∧ c ≤ 'Z' then Char.ofNat (c.toNat + 32)
  else if c = '\u017f' then 's'
  else if c = '\u212a' then 'k'
  else c

/-- Whether a key of a file means a setting. -/
def means (key name : String) : Bool := key.toList.map foldCase == name.toList.map foldCase

/-- The texts of an array of texts. -/
def readTexts? : Item → Option (List String)
  | .leaf (.array items) => items.mapM fun
    | .text s => some s
    | _ => none
  | _ => none

/-- Settings being read, with the keys that meant something. -/
structure Reading where
  settings : Settings
  known : List Path

/-- Read one key of the table of passes. -/
def readPassKey (table : String) (p : Reading) (entry : String × Item) : Option Reading :=
  let (key, item) := entry
  let known := [table, key] :: p.known
  if means key "passes" then
    (readTexts? item).map fun passes => ⟨{ p.settings with passes }, known⟩
  else if means key "fixpoint" then
    match item with
    | .leaf (.bool fixpoint) => some ⟨{ p.settings with fixpoint }, known⟩
    | _ => none
  else if means key "max_iterations" then
    match item with
    | .leaf (.int maxIterations) => some ⟨{ p.settings with maxIterations }, known⟩
    | _ => none
  else some p

/-- Read one key of the table of the output. -/
def readOutputKey (table : String) (p : Reading) (entry : String × Item) : Option Reading :=
  let (key, item) := entry
  if means key "format" then
    match item with
    | .leaf (.text format) => some ⟨{ p.settings with format }, [table, key] :: p.known⟩
    | _ => none
  else some p

/-- Read a table with a reader for its keys. -/
def readTable (readKey : Reading → String × Item → Option Reading) (p : Reading) :
    Item → Option Reading
  | .table entries => entries.foldlM readKey p
  | _ => none

/-- Read one key of the outermost table. -/
def readRootKey (p : Reading) (entry : String × Item) : Option Reading :=
  let (key, item) := entry
  let p' : Reading := { p with known := [key] :: p.known }
  if means key "pipeline" then readTable (readPassKey key) p' item
  else if means key "output" then readTable (readOutputKey key) p' item
  else some p

/-- The settings of a document, and the keys that mean nothing. -/
def ofDocument? (d : Toml.Document) : Option (Settings × List Path) := do
  let p ← d.root.foldlM readRootKey ⟨standard, []⟩
  return (p.settings, d.keys.filter fun path => !p.known.contains path)

/-! ## Loading -/

/-- Why settings cannot be loaded. -/
inductive LoadFault where
  /-- The file is no settings file, or a key has the wrong type. -/
  | unreadable
  | unknownKeys (keys : List Path)
  | invalid (cause : Invalid)

/-- Settings that cannot be loaded, and their file. -/
structure LoadError where
  path : String
  fault : LoadFault

/-- How settings that cannot be loaded are reported.  For an unreadable file the
    message is only the beginning: what was expected where is left open. -/
def LoadError.message (e : LoadError) : String :=
  match e.fault with
  | .unreadable => "parse error in " ++ e.path ++ ": "
  | .unknownKeys keys =>
    "unknown settings in " ++ e.path ++ ": " ++ ", ".intercalate (keys.map Toml.pathText)
  | .invalid cause => "invalid settings in " ++ e.path ++ ": " ++ cause.message

/-- The settings that a text holds. -/
def ofText (text : String) (registry : Pass.Registry) : Except LoadFault Settings := do
  match (Toml.Document.parse? text).bind ofDocument? with
  | none => throw .unreadable
  | some (settings, []) =>
    match settings.validate registry with
    | .ok () => return settings
    | .error cause => throw (.invalid cause)
  | some (_, keys) => throw (.unknownKeys keys)

/-- Load the settings of a path.  No path and a path that leads nowhere stand for
    the standard settings. -/
def load (disk : Files.Disk) (path : String) (registry : Pass.Registry) :
    Except LoadError Settings :=
  if path = "" then .ok standard
  else
    match disk.find path with
    | .error .missing => .ok standard
    | .ok (.file content) =>
      match Files.text? content with
      | some text => (ofText text registry).mapError (⟨path, ·⟩)
      | none => .error ⟨path, .unreadable⟩
    | _ => .error ⟨path, .unreadable⟩

end SeaOfNodes.Settings
