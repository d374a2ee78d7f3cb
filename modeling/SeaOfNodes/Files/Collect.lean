/-
  SeaOfNodes.Files.Collect

  Finding files by the ending of their names.
-/
import SeaOfNodes.Files.Disk

namespace SeaOfNodes.Files

/-- Why files cannot be found. -/
inductive CollectError where
  /-- Directories are searched for a given ending only. -/
  | noEnding
  | absent (path : String)
  | inaccessible (path : String) (fault : Fault)
  | unwalkable (root : String) (fault : Fault)
deriving DecidableEq

/-- How files that cannot be found are reported. -/
def CollectError.message : CollectError → String
  | .noEnding => "extension must not be empty"
  | .absent path =>
    "path " ++ path ++ " does not exist: stat " ++ path ++ ": " ++ Fault.missing.text
  | .inaccessible path fault =>
    "error accessing path " ++ path ++ ": stat " ++ path ++ ": " ++ fault.text
  | .unwalkable root fault => "walking " ++ root ++ ": lstat " ++ root ++ ": " ++ fault.text

/-- The files below a path whose names have an ending.  A directory gives clean
    paths; a file gives the path as it was given. -/
def findIn (path : String) (ending : String) : Entry → List String
  | .file _ => if endsWith (baseName path) ending then [path] else []
  | .dir entries =>
    (((Entry.dir entries).filesBelow (Path.ofText path)).filter fun p =>
      endsWith ((p.parts.getLast?).getD "") ending).map Path.text

/-- The files at or below a path whose names have an ending. -/
def findByEnding (disk : Disk) (root ending : String) : Except CollectError (List String) :=
  if ending = "" then .error .noEnding
  else
    match disk.find root with
    | .ok entry => .ok (findIn root ending entry)
    | .error fault => .error (.unwalkable root fault)

/-- The files that one path stands for: a file itself, if it has the ending, and
    of a directory all below it that have. -/
def expand (disk : Disk) (ending path : String) : Except CollectError (List String) :=
  match disk.find path with
  | .error .missing => .error (.absent path)
  | .error fault => .error (.inaccessible path fault)
  | .ok (.file _) => .ok (if endsWith path ending then [clean path] else [])
  | .ok (.dir entries) =>
    if ending = "" then .error .noEnding else .ok (findIn path ending (.dir entries))

/-- The files that paths stand for, ascending and each once. -/
def collect (disk : Disk) (paths : List String) (ending : String) :
    Except CollectError (List String) := do
  let found ← paths.mapM (expand disk ending)
  return (found.flatten.mergeSort (· ≤ ·)).eraseReps

end SeaOfNodes.Files
