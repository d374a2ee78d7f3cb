/-
  SeaOfNodes.Proofs.Files.Path

  Clean paths and their spellings.  A relative path is clean when it climbs first and then
  descends by names.  Cleaning keeps clean paths, and names appended to a path are appended
  to the clean one too.
-/
import Mathlib.Data.List.Basic
import SeaOfNodes.Files.Path

namespace SeaOfNodes.Files

/-- A name that an entry of a directory can have. -/
structure IsName (name : String) : Prop where
  nonempty : name ≠ ""
  not_here : name ≠ "."
  not_up : name ≠ ".."
  no_slash : '/' ∉ name.toList

instance : DecidablePred IsName := fun name =>
  decidable_of_iff (name ≠ "" ∧ name ≠ "." ∧ name ≠ ".." ∧ '/' ∉ name.toList)
    ⟨fun ⟨h, hhere, hup, hslash⟩ => ⟨h, hhere, hup, hslash⟩, fun h => ⟨h.nonempty, h.not_here, h.not_up, h.no_slash⟩⟩

/-- The path that leads on from another by names. -/
def descend (path : String) (names : List String) : String :=
  names.foldl (fun path name => path ++ "/" ++ name) path

/-- Names without slashes are found between the slashes that they are joined by. -/
theorem segments_intercalate {names : List String} (hne : names ≠ []) (h : ∀ name ∈ names, '/' ∉ name.toList) :
    segments ("/".intercalate names) = names := by
  have hjoined : ("/".intercalate names).toList = ['/'].intercalate (names.map String.toList) :=
    String.toList_intercalate
  have hpieces : ∀ piece ∈ names.map String.toList, '/' ∉ piece := by
    simpa using h
  rw [segments, hjoined, List.splitOn_intercalate _ hpieces (by simpa using hne), List.map_map]
  simp

theorem not_mem_of_mem_splitOn {cs piece : List Char} (h : piece ∈ cs.splitOn '/') : '/' ∉ piece := by
  induction cs generalizing piece with
  | nil =>
      rw [List.splitOn_nil, List.mem_singleton] at h
      simp [h]
  | cons c cs ih =>
      rw [List.splitOn_cons_eq_if_modifyHead] at h
      split at h
      · rcases List.mem_cons.1 h with rfl | h
        · simp
        · exact ih h
      · rename_i hc
        obtain ⟨first, others, hsplit⟩ := List.exists_cons_of_ne_nil (List.splitOn_ne_nil '/' cs)
        rw [hsplit, List.modifyHead_cons] at h
        rcases List.mem_cons.1 h with rfl | h
        · have hfirst : '/' ∉ first := ih (hsplit ▸ List.mem_cons_self)
          have hne : '/' ≠ c := fun heq => hc (beq_iff_eq.2 heq.symm)
          simp [hne, hfirst]
        · exact ih (hsplit ▸ List.mem_cons_of_mem first h)

theorem not_mem_of_mem_segments {path name : String} (h : name ∈ segments path) : '/' ∉ name.toList := by
  obtain ⟨piece, hpiece, rfl⟩ := List.mem_map.1 h
  rw [String.toList_ofList]
  exact not_mem_of_mem_splitOn hpiece

/-! ## The last name -/

/-- The path that leads on from a clean one by names. -/
def Path.extend (p : Path) (names : List String) : Path := { p with parts := p.parts ++ names }

/-- The parts of a clean relative path: it climbs first and descends then. -/
def Climbs (parts : List String) : Prop :=
  ∃ (k : Nat) (names : List String), parts = List.replicate k ".." ++ names ∧ ∀ name ∈ names, IsName name

/-- A clean relative path. -/
structure Path.IsClean (p : Path) : Prop where
  rooted : p.rooted = false
  climbs : Climbs p.parts

theorem Climbs.no_slash {parts : List String} (h : Climbs parts) : ∀ part ∈ parts, '/' ∉ part.toList := by
  obtain ⟨k, names, rfl, hnames⟩ := h
  intro part hpart
  rcases List.mem_append.1 hpart with hpart | hpart
  · rw [List.eq_of_mem_replicate hpart]
    decide
  · exact (hnames part hpart).no_slash

theorem Climbs.nonempty {parts : List String} (h : Climbs parts) : ∀ part ∈ parts, part ≠ "" ∧ part ≠ "." := by
  obtain ⟨k, names, rfl, hnames⟩ := h
  intro part hpart
  rcases List.mem_append.1 hpart with hpart | hpart
  · rw [List.eq_of_mem_replicate hpart]
    decide
  · exact ⟨(hnames part hpart).nonempty, (hnames part hpart).not_here⟩

theorem step_of_isName {name : String} (h : IsName name) (p : Path) : p.step name = p.extend [name] := by
  rw [Path.step, if_neg (by simp [h.nonempty, h.not_here]), if_neg h.not_up]
  rfl

theorem foldl_step_names {names : List String} (h : ∀ name ∈ names, IsName name) (p : Path) :
    names.foldl Path.step p = p.extend names := by
  induction names generalizing p with
  | nil => simp [Path.extend]
  | cons name rest ih =>
      rw [List.foldl_cons, step_of_isName (h name List.mem_cons_self), ih fun n hn => h n (List.mem_cons_of_mem name hn)]
      simp [Path.extend]

theorem foldl_step_climbs {parts : List String} (h : Climbs parts) :
    parts.foldl Path.step ⟨false, []⟩ = ⟨false, parts⟩ := by
  obtain ⟨k, names, rfl, hnames⟩ := h
  have hclimb : (List.replicate k "..").foldl Path.step ⟨false, []⟩ = ⟨false, List.replicate k ".."⟩ := by
    induction k with
    | zero => rfl
    | succ k ih =>
        rw [List.replicate_succ', List.foldl_append, ih]
        cases k with
        | zero => rfl
        | succ k => simp [Path.step, List.replicate_succ']
  rw [List.foldl_append, hclimb, foldl_step_names hnames]
  rfl

/-- A name more keeps a relative path clean. -/
theorem Path.IsClean.step {p : Path} (h : p.IsClean) {name : String} (hslash : '/' ∉ name.toList) :
    (p.step name).IsClean := by
  obtain ⟨rooted, parts⟩ := p
  obtain ⟨rfl, k, names, rfl, hnames⟩ := h
  by_cases hstay : name = "" ∨ name = "."
  · rw [Path.step, if_pos hstay]
    exact ⟨rfl, k, names, rfl, hnames⟩
  by_cases hup : name = ".."
  · rw [Path.step, if_neg hstay, if_pos hup]
    rcases List.eq_nil_or_concat' names with rfl | ⟨front, last, rfl⟩
    · -- Nothing but climbing goes on climbing.
      cases k with
      | zero => exact ⟨rfl, 1, [], rfl, by simp⟩
      | succ k =>
          rw [List.replicate_succ']
          exact ⟨by simp, k + 2, [], by simp [List.replicate_succ'], by simp⟩
    · have hlast := hnames last (by simp)
      refine ⟨by simp [hlast.not_up], k, front, ?_, fun n hn => hnames n (List.mem_append_left _ hn)⟩
      simp [← List.append_assoc, hlast.not_up]
  · have hname : IsName name := ⟨fun h => hstay (.inl h), fun h => hstay (.inr h), hup, hslash⟩
    rw [step_of_isName hname]
    refine ⟨rfl, k, names ++ [name], by simp [Path.extend], fun n hn => ?_⟩
    rcases List.mem_append.1 hn with hn | hn
    · exact hnames n hn
    · rw [List.mem_singleton.1 hn]
      exact hname

/-- Names more keep a relative path clean. -/
theorem isClean_foldl {names : List String} (hslash : ∀ name ∈ names, '/' ∉ name.toList) {p : Path} (h : p.IsClean) :
    (names.foldl Path.step p).IsClean := by
  induction names generalizing p with
  | nil => exact h
  | cons name rest ih => exact ih (fun n hn => hslash n (List.mem_cons_of_mem name hn)) (h.step (hslash name List.mem_cons_self))

theorem isRooted_eq_false {path name : String} {rest : List String} (h : segments path = name :: rest)
    (hname : name ≠ "") : isRooted path = false := by
  rw [isRooted, decide_eq_false_iff_not]
  intro hhead
  obtain ⟨cs, hcs⟩ : ∃ cs, path.toList = '/' :: cs := by
    cases hlist : path.toList with
    | nil => simp [hlist] at hhead
    | cons c cs =>
        rw [hlist] at hhead
        exact ⟨cs, by rw [Option.some.inj hhead]⟩
  rw [segments, hcs, List.splitOn_cons_eq_if_modifyHead, if_pos (beq_self_eq_true '/'), List.map_cons] at h
  exact hname (List.cons.inj h).1.symm

/-- The names between the slashes of a clean path are its parts. -/
theorem segments_text {p : Path} (h : p.IsClean) (hsome : p.parts ≠ []) : segments p.text = p.parts := by
  rw [Path.text, h.rooted, if_neg Bool.false_ne_true, if_neg (by simpa using hsome)]
  exact segments_intercalate hsome h.climbs.no_slash

/-- A clean path is the clean path of its text. -/
theorem ofText_text {p : Path} (h : p.IsClean) : Path.ofText p.text = p := by
  obtain ⟨rooted, parts⟩ := p
  obtain rfl : rooted = false := h.rooted
  cases parts with
  | nil => rfl
  | cons first rest =>
      have hsegments := segments_text h (List.cons_ne_nil first rest)
      have hfirst := (h.climbs.nonempty first List.mem_cons_self).1
      rw [Path.ofText, hsegments, isRooted_eq_false hsegments hfirst, foldl_step_climbs h.climbs]

end SeaOfNodes.Files
