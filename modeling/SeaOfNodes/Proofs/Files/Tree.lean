/-
  SeaOfNodes.Proofs.Files.Tree

  Trees of files, and what paths lead to in them.  A path that leads somewhere leads there
  in its clean spelling too: climbing out of a directory undoes the descent into it.  The
  files below a directory are those that names lead to from it.
-/
import Mathlib.Data.List.Induction
import SeaOfNodes.Files.Tree
import SeaOfNodes.Proofs.Except
import SeaOfNodes.Proofs.Files.Path
import SeaOfNodes.Proofs.Lists

namespace SeaOfNodes.Files

/-- A tree of which the entries have names, those of a directory different ones. -/
inductive Entry.Proper : Entry → Prop
  | file {content : Content} : Proper (.file content)
  | dir {entries : List (String × Entry)} (hnames : ∀ x ∈ entries, IsName x.1)
      (hdistinct : (entries.map Prod.fst).Nodup) (hbelow : ∀ x ∈ entries, Proper x.2) : Proper (.dir entries)

/-- A file stands under a list of names: it is the entry itself, or stands in an entry of the
    directory. -/
inductive Entry.Holds : Entry → List String → Content → Prop
  | here {content : Content} : Holds (.file content) [] content
  | inside {entries : List (String × Entry)} {name : String} {child : Entry} {names : List String} {content : Content}
      (hmem : (name, child) ∈ entries) (h : Holds child names content) : Holds (.dir entries) (name :: names) content

/-! ## Files below a directory -/

/-- Where a path has led: an entry, and the directories it lies in, innermost first. -/
structure Place where
  above : List Entry
  entry : Entry

namespace Place

/-- The place that a name more leads to. -/
def step (place : Place) (name : String) : Except Fault Place :=
  match place.entry with
  | .file _ => .error .notDirectory
  | .dir entries =>
    if name = "" ∨ name = "." then .ok place
    else if name = ".." then
      match place.above with
      | [] => .error .missing
      | parent :: above => .ok ⟨above, parent⟩
    else
      match entries.lookup name with
      | none => .error .missing
      | some child => .ok ⟨place.entry :: place.above, child⟩

/-- The place that names lead to. -/
def walk (place : Place) (names : List String) : Except Fault Place := names.foldlM step place

/-- A name leads from a directory to itself, out of it, or to an entry of it. -/
inductive Leads : Place → String → Place → Prop
  | stay {above : List Entry} {entries : List (String × Entry)} {name : String} (h : name = "" ∨ name = ".") :
      Leads ⟨above, .dir entries⟩ name ⟨above, .dir entries⟩
  | up {parent : Entry} {above : List Entry} {entries : List (String × Entry)} :
      Leads ⟨parent :: above, .dir entries⟩ ".." ⟨above, parent⟩
  | down {above : List Entry} {entries : List (String × Entry)} {name : String} {child : Entry}
      (hstay : ¬(name = "" ∨ name = ".")) (hup : name ≠ "..") (h : entries.lookup name = some child) :
      Leads ⟨above, .dir entries⟩ name ⟨.dir entries :: above, child⟩

theorem step_eq_ok {place last : Place} {name : String} : place.step name = .ok last ↔ Leads place name last := by
  obtain ⟨above, entry⟩ := place
  constructor
  · intro h
    cases entry with
    | file content => cases h
    | dir entries =>
        simp only [step] at h
        split at h
        · cases h
          exact .stay ‹_›
        split at h
        · subst name
          cases above with
          | nil => cases h
          | cons parent above =>
              cases h
              exact .up
        · cases hlookup : entries.lookup name with
          | none =>
              rw [hlookup] at h
              cases h
          | some child =>
              rw [hlookup] at h
              cases h
              exact .down ‹_› ‹_› hlookup
  · intro h
    cases h with
    | stay h => simp [step, h]
    | up => rfl
    | down hstay hup h => simp [step, hstay, hup, h]

theorem walk_nil (place : Place) : place.walk [] = .ok place := rfl

theorem walk_cons (place : Place) (name : String) (names : List String) :
    place.walk (name :: names) = place.step name >>= fun next => next.walk names := List.foldlM_cons

theorem walk_append_eq_ok {place last : Place} {front back : List String} :
    place.walk (front ++ back) = .ok last ↔ ∃ between, place.walk front = .ok between ∧ between.walk back = .ok last := by
  rw [walk, List.foldlM_append, bind_eq_ok]
  rfl

theorem walk_singleton (place : Place) (name : String) : place.walk [name] = place.step name := by
  rw [walk_cons]
  cases place.step name <;> rfl

theorem walk_concat_eq_ok {place last : Place} {front : List String} {name : String} :
    place.walk (front ++ [name]) = .ok last ↔ ∃ between, place.walk front = .ok between ∧ Leads between name last := by
  simp only [walk_append_eq_ok, walk_singleton, step_eq_ok]

/-- Following names ends at the entry of the place that they lead to. -/
theorem follow_eq_walk (place : Place) (names : List String) :
    Entry.follow place.above place.entry names = (place.walk names).map Place.entry := by
  induction names generalizing place with
  | nil => rw [Entry.follow, walk_nil, Except.map]
  | cons name names ih =>
      obtain ⟨above, entry⟩ := place
      rw [walk_cons, step]
      cases entry with
      | file content => rw [Entry.follow]; rfl
      | dir entries =>
          unfold Entry.follow
          dsimp only
          split
          · exact ih ⟨above, .dir entries⟩
          split
          · cases above with
            | nil => rfl
            | cons parent above => exact ih ⟨above, parent⟩
          · cases entries.lookup name with
            | none => rfl
            | some child => exact ih ⟨.dir entries :: above, child⟩

/-- The entries at and above a place are proper trees, those above it directories. -/
structure Proper (place : Place) : Prop where
  entry : place.entry.Proper
  above : ∀ parent ∈ place.above, parent.Proper ∧ ∃ entries, parent = .dir entries

theorem Proper.leads {place last : Place} {name : String} (h : place.Proper) (hleads : Leads place name last) :
    last.Proper := by
  cases hleads with
  | stay => exact h
  | up => exact ⟨(h.above _ List.mem_cons_self).1, fun e he => h.above e (List.mem_cons_of_mem _ he)⟩
  | down _ _ hlookup =>
      cases h.entry with
      | dir _ hdistinct hbelow =>
          have hmem := (lookup_eq_some_iff_mem hdistinct).1 hlookup
          exact ⟨hbelow _ hmem, List.forall_mem_cons.2 ⟨⟨h.entry, _, rfl⟩, h.above⟩⟩

theorem Proper.walk {place last : Place} {names : List String} (h : place.Proper) (hwalk : place.walk names = .ok last) :
    last.Proper :=
  foldlM_keeps Place.Proper (fun _ _ _ hp hstep => hp.leads (step_eq_ok.1 hstep)) hwalk h

/-! ### Clean spellings -/

/-- A name more leads from where a clean path has led to where the path cleaned with the name
    leads. -/
theorem walk_step {place between last : Place} {p : Path} {name : String} (hclean : p.IsClean)
    (hwalk : place.walk p.parts = .ok between) (hleads : Leads between name last) :
    place.walk (p.step name).parts = .ok last := by
  cases hleads with
  | stay hstay =>
      rw [Path.step, if_pos hstay]
      exact hwalk
  | @up parent above entries =>
      have hclimb : place.walk (p.parts ++ [".."]) = .ok ⟨above, parent⟩ := walk_concat_eq_ok.2 ⟨_, hwalk, .up⟩
      rw [Path.step, if_neg (by decide), if_pos rfl]
      rcases List.eq_nil_or_concat' p.parts with hnil | ⟨front, name, hparts⟩
      · rw [hnil] at hclimb
        simpa [hnil, hclean.rooted] using hclimb
      by_cases hup : name = ".."
      · simpa [hparts, hup] using hclimb
      · -- The last name was a descent from the directory that is climbed back to.
        rw [hparts, walk_concat_eq_ok] at hwalk
        obtain ⟨before, hbefore, hdown⟩ := hwalk
        obtain ⟨hnonempty, hhere⟩ := hclean.climbs.nonempty name (by simp [hparts])
        cases hdown with
        | stay hstay => exact absurd hstay (not_or.2 ⟨hnonempty, hhere⟩)
        | up => exact absurd rfl hup
        | down => simpa [hparts, hup] using hbefore
  | down hstay hup hlookup =>
      rw [Path.step, if_neg hstay, if_neg hup]
      exact walk_concat_eq_ok.2 ⟨_, hwalk, .down hstay hup hlookup⟩

/-- Names lead where the clean path of them leads. -/
theorem walk_parts {place last : Place} {names : List String} (hslash : ∀ name ∈ names, '/' ∉ name.toList)
    (hwalk : place.walk names = .ok last) :
    place.walk (names.foldl Path.step ⟨false, []⟩).parts = .ok last := by
  induction names using List.reverseRecOn generalizing last with
  | nil => exact hwalk
  | append_singleton front name ih =>
      have hfront : ∀ n ∈ front, '/' ∉ n.toList := fun n hn => hslash n (List.mem_append_left _ hn)
      obtain ⟨between, hbetween, hleads⟩ := walk_concat_eq_ok.1 hwalk
      rw [List.foldl_append]
      exact walk_step (isClean_foldl hfront ⟨rfl, 0, [], rfl, by simp⟩) (ih hfront hbetween) hleads

/-! ### Descents -/

/-- The name of an entry leads down to it. -/
theorem leads_of_mem {entries : List (String × Entry)} {name : String} {child : Entry}
    (h : (Entry.dir entries).Proper) (hmem : (name, child) ∈ entries) (above : List Entry) :
    IsName name ∧ child.Proper ∧ Leads ⟨above, .dir entries⟩ name ⟨.dir entries :: above, child⟩ := by
  cases h with
  | dir hnames hdistinct hbelow =>
      have hname : IsName name := hnames _ hmem
      exact ⟨hname, hbelow _ hmem,
        .down (not_or.2 ⟨hname.nonempty, hname.not_here⟩) hname.not_up ((lookup_eq_some_iff_mem hdistinct).2 hmem)⟩

end Place

end SeaOfNodes.Files
