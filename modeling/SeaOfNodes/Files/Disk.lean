/-
  SeaOfNodes.Files.Disk

  What a program can see of the files around it: where a path leads, and whether
  a file can be created there.
-/
import SeaOfNodes.Files.Tree

namespace SeaOfNodes.Files

/-- A view of files. -/
structure Disk where
  find : String → Except Fault Entry
  checkCreate : String → Except Fault Unit

/-- The view from the root of a tree. -/
def Disk.ofTree (root : Entry) : Disk := ⟨root.resolve, root.checkCreate⟩

/-- A path, and what was found there. -/
structure Mount where
  path : String
  entry : Except Fault Entry

/-- What a mount says about a path: the path itself was looked up, or it leads on
    from the path that was. -/
def Mount.find? (m : Mount) (path : String) : Option (Except Fault Entry) :=
  let root := Path.ofText m.path
  let target := Path.ofText path
  if path = m.path then some m.entry
  else if root.rooted = target.rooted ∧ root.parts <+: target.parts then
    match m.entry with
    | .ok entry => some (entry.follow [] (target.parts.drop root.parts.length))
    | .error _ => none
  else none

/-- The view of a few mounts, of which the first that knows a path decides, and of
    one file that may be created. -/
def Disk.ofMounts (mounts : List Mount) (create : Except Fault Unit) : Disk :=
  ⟨fun path => (mounts.findSome? fun m => m.find? path).getD (.error .missing), fun _ => create⟩

end SeaOfNodes.Files
