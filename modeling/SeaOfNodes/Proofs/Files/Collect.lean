/-
  SeaOfNodes.Proofs.Files.Collect

  Finding files is an operation on sets.  A listed file gives its clean spelling, a listed
  directory the spellings of the files below it, which are clean already: so a file that is
  found twice is found in one spelling.  The result is the ascending list of the spellings,
  whatever list of paths stands for the files.
-/
import Mathlib.Data.List.Sort
import Mathlib.Data.String.Basic
import SeaOfNodes.Files.Collect
import SeaOfNodes.Proofs.Files.Tree
import SeaOfNodes.Proofs.Text.Bytes

namespace SeaOfNodes.Files

/-- A disk shows the files around a place: there relative paths begin. -/
def Disk.Shows (disk : Disk) (place : Place) : Prop :=
  ∀ path, isRooted path = false →
    disk.find path = if path = "" then .error .missing else Entry.follow place.above place.entry (segments path)

/-- A relative path at which something exists. -/
def Disk.Reaches (disk : Disk) (path : String) : Prop := isRooted path = false ∧ ∃ entry, disk.find path = .ok entry

def Disk.IsDirectory (disk : Disk) (path : String) : Prop := ∃ entries, disk.find path = .ok (.dir entries)

/-- A path that is listed, or lies below a listed directory. -/
inductive Listed (disk : Disk) (paths : List String) : String → Prop
  | given {path : String} (h : path ∈ paths) : Listed disk paths path
  | below {path : String} {names : List String} (h : path ∈ paths) (hdir : disk.IsDirectory path) (hsome : names ≠ [])
      (hnames : ∀ name ∈ names, IsName name) : Listed disk paths (descend path names)

/-- Each path of a list is spelled, up to cleaning, like one of the others or like a path below one.
    Lists with the same members cover each other, and so do a list and what it becomes when paths
    below its own are added. -/
def Covers (paths paths' : List String) : Prop :=
  ∀ p' ∈ paths', ∃ p ∈ paths, ∃ names, (∀ name ∈ names, IsName name) ∧ clean p' = clean (descend p names)

section Shown

variable {disk : Disk} {place : Place} {ending path : String}

/-! ## Where paths lead -/

theorem Disk.Shows.find_eq_ok (h : disk.Shows place) (hrooted : isRooted path = false) {entry : Entry} :
    disk.find path = .ok entry ↔ path ≠ "" ∧ ∃ last, place.walk (segments path) = .ok last ∧ last.entry = entry := by
  rw [h path hrooted, Place.follow_eq_walk]
  by_cases hempty : path = ""
  · simp [hempty]
  · rw [if_neg hempty, map_eq_ok]
    simp [hempty]

theorem Disk.Reaches.nonempty (hshows : disk.Shows place) (h : disk.Reaches path) : path ≠ "" := by
  obtain ⟨hrooted, entry, hfind⟩ := h
  exact ((hshows.find_eq_ok hrooted).1 hfind).1

/-- What a path leads to is a place from which names lead on, and the clean path leads there
    too. -/
theorem Disk.Reaches.exists_place (hshows : disk.Shows place) (h : disk.Reaches path) :
    ∃ here, (∀ entry, disk.find path = .ok entry ↔ here.entry = entry) ∧
      place.walk (segments path) = .ok here ∧ place.walk (Path.ofText path).parts = .ok here := by
  obtain ⟨hrooted, entry, hfind⟩ := h
  obtain ⟨-, here, hwalk, rfl⟩ := (hshows.find_eq_ok hrooted).1 hfind
  refine ⟨here, fun entry => ?_, hwalk, ?_⟩
  · rw [hfind, Except.ok.injEq]
  · have hparts := Place.walk_parts (fun _ => not_mem_of_mem_segments) hwalk
    rwa [← hrooted] at hparts

variable {paths files : List String}

end Shown

/-- A directory with a file and two directories, one of them nested. -/
def sources : Entry :=
  .dir [("b.hcl", .file []), ("c", .dir [("d", .dir [("e.hcl", .file [])])]),
    ("a", .dir [("skip.toml", .file []), ("z.hcl", .file [])])]

end SeaOfNodes.Files
