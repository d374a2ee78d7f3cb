/-
  SeaOfNodes.Files.Path

  Paths.  A path is a text whose names are separated by slashes; a *clean* path
  has no empty name, no `.`, and `..` only in front.
-/

namespace SeaOfNodes.Files

/-- The names between the slashes of a path, empty ones included. -/
def segments (path : String) : List String := (path.toList.splitOn '/').map String.ofList

/-- Whether a path begins at the root of all files. -/
def isRooted (path : String) : Bool := path.toList.head? = some '/'

/-- A clean path. -/
structure Path where
  rooted : Bool
  parts : List String
deriving DecidableEq

namespace Path

/-- Append a name: an empty one and `.` change nothing, and `..` takes the last
    name away, if there is one that is not `..` itself. -/
def step (p : Path) (name : String) : Path :=
  if name = "" ∨ name = "." then p
  else if name = ".." then
    match p.parts.getLast? with
    | none => if p.rooted then p else { p with parts := [".."] }
    | some last =>
      if last = ".." then { p with parts := p.parts ++ [".."] }
      else { p with parts := p.parts.dropLast }
  else { p with parts := p.parts ++ [name] }

/-- The clean path that a text stands for. -/
def ofText (path : String) : Path := (segments path).foldl step ⟨isRooted path, []⟩

/-- The path of a child. -/
def child (p : Path) (name : String) : Path := { p with parts := p.parts ++ [name] }

/-- A clean path as it is written; the path without names is `.`, or `/` at the
    root. -/
def text (p : Path) : String :=
  if p.rooted then "/" ++ "/".intercalate p.parts
  else if p.parts.isEmpty then "."
  else "/".intercalate p.parts

end Path

/-- The clean spelling of a path. -/
def clean (path : String) : String := (Path.ofText path).text

/-- The last name of a path, slashes at its end left out. -/
def baseName (path : String) : String :=
  (((segments path).filter (· ≠ "")).getLast?).getD path

/-- Whether a text ends with another. -/
def endsWith (text ending : String) : Bool := ending.toList.isSuffixOf text.toList

end SeaOfNodes.Files
