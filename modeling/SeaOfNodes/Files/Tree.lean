/-
  SeaOfNodes.Files.Tree

  Files and directories as a finite tree, and what a path leads to in it.
-/
import SeaOfNodes.Files.Path

namespace SeaOfNodes.Files

/-- The content of a file. -/
abbrev Content := List UInt8

/-- The content that a text has. -/
def contentOf (text : String) : Content := text.toUTF8.toList

/-- The text of a content, if it is one. -/
def text? (content : Content) : Option String := String.fromUTF8? ⟨content.toArray⟩

/-- A file, or a directory with its named entries. -/
inductive Entry where
  | file (content : Content)
  | dir (entries : List (String × Entry))

/-- Why a path leads to nothing that can be used. -/
inductive Fault where
  | missing
  | notDirectory
  | isDirectory
deriving DecidableEq

/-- How a fault is reported. -/
def Fault.text : Fault → String
  | .missing => "no such file or directory"
  | .notDirectory => "not a directory"
  | .isDirectory => "is a directory"

namespace Entry

/-- Follow names from an entry; `above` are the directories it lies in, innermost
    first. -/
def follow (above : List Entry) (entry : Entry) : List String → Except Fault Entry
  | [] => .ok entry
  | name :: names =>
    match entry with
    | .file _ => .error .notDirectory
    | .dir entries =>
      if name = "" ∨ name = "." then follow above entry names
      else if name = ".." then
        match above with
        | [] => .error .missing
        | parent :: above => follow above parent names
      else
        match entries.lookup name with
        | none => .error .missing
        | some child => follow (entry :: above) child names

/-- The entry that a path leads to from a directory.  A path that begins at the
    root of all files leads out of the tree, and the empty path nowhere. -/
def resolve (root : Entry) (path : String) : Except Fault Entry :=
  if path = "" ∨ isRooted path then .error .missing else follow [] root (segments path)

mutual

/-- The paths of the files of an entry that has a path itself: directory after
    directory, the entries of each in the order of their names. -/
def filesBelow (path : Path) : Entry → List Path
  | .file _ => [path]
  | .dir entries => ((listEntries path entries).mergeSort fun a b => a.1 ≤ b.1).flatMap (·.2)

/-- The names of entries, each with the paths of its files. -/
def listEntries (path : Path) : List (String × Entry) → List (String × List Path)
  | [] => []
  | (name, entry) :: rest => (name, filesBelow (path.child name) entry) :: listEntries path rest

end

/-- Change what stands under a name of a directory, or put something new there. -/
def updateEntries (name : String) (f : Option Entry → Entry) :
    List (String × Entry) → List (String × Entry)
  | [] => [(name, f none)]
  | (n, entry) :: rest =>
    if n = name then (n, f (some entry)) :: rest else (n, entry) :: updateEntries name f rest

/-- Change what stands at the end of a list of names, making the directories on
    the way to it. -/
def update (f : Option Entry → Entry) : List String → Option Entry → Entry
  | [], entry => f entry
  | name :: names, some (.dir entries) => .dir (updateEntries name (update f names) entries)
  | name :: names, _ => .dir [(name, update f names none)]

/-- Put a file at a path, making directories on the way. -/
def addFile (root : Entry) (path : String) (content : Content) : Entry :=
  update (fun _ => .file content) (Path.ofText path).parts (some root)

/-- Make the directories of a path. -/
def addDir (root : Entry) (path : String) : Entry :=
  update (fun entry => entry.getD (.dir [])) (Path.ofText path).parts (some root)

/-- Whether a file can be created, or written anew, at a path: it leads to a file,
    or to nothing but its directory exists. -/
def checkCreate (root : Entry) (path : String) : Except Fault Unit :=
  match root.resolve path with
  | .ok (.file _) => .ok ()
  | .ok (.dir _) => .error .isDirectory
  | .error .missing =>
    let names := segments path
    match follow [] root names.dropLast with
    | .error fault => .error fault
    | .ok (.file _) => .error .notDirectory
    | .ok (.dir _) =>
      if path = "" ∨ isRooted path then .error .missing
      else if names.getLast? = some "" then .error .isDirectory
      else .ok ()
  | .error fault => .error fault

end Entry

end SeaOfNodes.Files
