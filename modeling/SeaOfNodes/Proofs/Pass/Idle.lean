/-
  SeaOfNodes.Proofs.Pass.Idle

  When a pass has nothing to do, and what the others may give it to do.  Removing dead code
  gives nothing to any pass: a dead node is no choice of a phi and no reason to keep one.
  Lowering is idle once it has run and stays so, for the other passes make no nodes.  No
  pass makes a phi, so bypassing phis, which may go on for a while, comes to an end.
-/
import SeaOfNodes.Proofs.Pass.Report

namespace SeaOfNodes.Graph

/-! ## Graphs that lose nodes -/

/-- A graph has lost nodes, and those that are left are what they were. -/
structure Thins (g g' : Graph) : Prop where
  has : ∀ id, g'.has id = true → g.has id = true
  op : ∀ id, g'.has id = true → g'.op id = g.op id
  props : ∀ id, g'.has id = true → g'.props id = g.props id

namespace Thins

theorem refl (g : Graph) : Thins g g := ⟨fun _ => id, fun _ _ => rfl, fun _ _ => rfl⟩

theorem trans {g g' g'' : Graph} (h : Thins g g') (h' : Thins g' g'') : Thins g g'' where
  has id hid := h.has id (h'.has id hid)
  op id hid := (h'.op id hid).trans (h.op id (h'.has id hid))
  props id hid := (h'.props id hid).trans (h.props id (h'.has id hid))

theorem of_lacks {g g' : Graph} {id : NodeId} (h : Lacks g g' id) : Thins g g' where
  has other hother := ((h.has other).1 hother).1
  op other hother := h.op other ((h.has other).1 hother).2
  props other hother := h.props other ((h.has other).1 hother).2

theorem op_eq {g g' : Graph} (h : Thins g g') {op : Op} (hop : op ≠ .invalid) {id : NodeId} (hid : g'.op id = op) :
    g.op id = op := by
  rw [← h.op id (has_of_op_ne_invalid (by rw [hid]; exact hop)), hid]

end Thins

/-- The number of phis. -/
def phiCount (g : Graph) : Nat := (g.find .phi).length

/-- No phi is new. -/
theorem phiCount_le {g g' : Graph} (h : ∀ id, g'.op id = .phi → g.op id = .phi) : g'.phiCount ≤ g.phiCount := by
  have hnodup : (g'.find .phi).Nodup := g'.nodup_ids.filter _
  refine (List.subperm_of_subset hnodup fun id hid => ?_).length_le
  rw [mem_find_iff (by decide)] at hid ⊢
  exact h id hid

/-- No phi is new and one is gone. -/
theorem phiCount_lt {g g' : Graph} (h : ∀ id, g'.op id = .phi → g.op id = .phi) {phi : NodeId}
    (hphi : g.op phi = .phi) (hgone : g'.has phi = false) : g'.phiCount < g.phiCount := by
  have hnodup : (phi :: g'.find .phi).Nodup := by
    refine List.nodup_cons.2 ⟨fun hmem => ?_, g'.nodup_ids.filter _⟩
    rw [mem_find_iff (by decide)] at hmem
    exact op_ne_of_fresh hgone (by decide) hmem
  refine (List.subperm_of_subset hnodup fun id hid => ?_).length_le
  rw [mem_find_iff (by decide)]
  rcases List.mem_cons.1 hid with rfl | hid
  · exact hphi
  · exact h id ((mem_find_iff (by decide)).1 hid)

end SeaOfNodes.Graph

namespace SeaOfNodes.Pass

open SeaOfNodes.Graph

/-! ## Dead nodes and choices -/

/-- The members of a list are all one. -/
theorem forall_mem_iff_eq {l : List NodeId} {a : NodeId} :
    (∀ n, n ∈ l ↔ n = a) ↔ ∃ rest, l = a :: rest ∧ ∀ n ∈ rest, n = a := by
  constructor
  · intro h
    cases l with
    | nil => exact absurd ((h a).2 rfl) List.not_mem_nil
    | cons first rest =>
        obtain rfl : first = a := (h first).1 List.mem_cons_self
        exact ⟨rest, rfl, fun n hn => (h n).1 (List.mem_cons_of_mem first hn)⟩
  · rintro ⟨rest, rfl, hrest⟩ n
    exact List.mem_cons.trans (or_iff_left_of_imp (hrest n))

/-- A phi has no choice if one other node is all that it reads, control does not leave it and the
    other does not read it. -/
theorem NoChoice.soleChoice?_eq_some_iff {g : Graph} {phi source : NodeId} :
    g.soleChoice? phi = some source ↔ source ≠ phi ∧ g.hasControlOutput phi = false ∧
      (∀ n, n ∈ g.valueInputs phi ↔ n = source) ∧ source ∉ g.consumers phi := by
  constructor
  · intro h
    obtain ⟨hcontrol, hself, hinputs⟩ := soleChoice?_eq_some h
    obtain ⟨others, hothers, -⟩ := forall_mem_iff_eq.1 hinputs
    refine ⟨hself, hcontrol, hinputs, fun hreads => ?_⟩
    simp [soleChoice?, hothers, hreads] at h
  · rintro ⟨hself, hcontrol, hinputs, hreads⟩
    obtain ⟨others, hothers, hsame⟩ := forall_mem_iff_eq.1 hinputs
    have hany : others.any (fun n => n ≠ source) = false := by simpa using hsame
    simpa [soleChoice?, hothers, hcontrol, hself, hreads] using hany

namespace DeadCode

/-- A dead node is floating and no edge leaves it. -/
theorem mem_deadNodes {g : Graph} {id : NodeId} :
    id ∈ g.deadNodes ↔ g.has id = true ∧ g.isFloating id = true ∧ g.outputs id = [] := by
  rw [deadNodes, List.mem_filter, mem_ids, Bool.and_eq_true, List.isEmpty_iff]

/-- A dead node is removed. -/
structure Prunes (g g' : Graph) (id : NodeId) : Prop where
  consistent : g.Consistent
  dead : id ∈ g.deadNodes
  removed : g.remove id = .ok g'

section Prunes

variable {g g' : Graph} {id : NodeId} (h : Prunes g g' id)
include h

theorem Prunes.lacks : Lacks g g' id := (h.consistent.remove_law h.removed).1

theorem Prunes.consistent' : g'.Consistent := h.consistent.remove h.removed

/-- Only the edges that reach a dead node go with it. -/
theorem Prunes.multiplicity (e : Edge) : g'.multiplicity e = if e.target = id then 0 else g.multiplicity e := by
  rw [(h.consistent.remove_law h.removed).2]
  by_cases hsource : e.source = id
  · have hnone : g.multiplicity e = 0 := by
      rw [Graph.multiplicity, hsource, (mem_deadNodes.1 h.dead).2.2, List.count_nil]
    rw [if_pos (.inl hsource), hnone, ite_self]
  · simp only [hsource, false_or]

/-- Control neither reaches a dead node nor leaves it. -/
theorem Prunes.control {e : Edge} (he : 0 < g.multiplicity e) (hrole : e.role.isControl = true) :
    e.source ≠ id ∧ e.target ≠ id := by
  have hfree : ¬ g.isFixed id = true := by
    simpa [isFloating] using (mem_deadNodes.1 h.dead).2.1
  rw [h.consistent.isFixed_iff, not_or] at hfree
  constructor
  · rintro rfl
    exact hfree.2 (.inr ⟨e.target, e.role, hrole, he⟩)
  · rintro rfl
    exact hfree.2 (.inl ⟨e.source, e.role, hrole, he⟩)

theorem Prunes.isFixed_iff {other : NodeId} (hother : other ≠ id) : g'.isFixed other = true ↔ g.isFixed other = true := by
  have hkept : ∀ e, e.role.isControl = true → (0 < g'.multiplicity e ↔ 0 < g.multiplicity e) := by
    intro e hrole
    rw [h.multiplicity]
    split
    · rename_i htarget
      refine iff_of_false (Nat.lt_irrefl 0) fun he => ?_
      exact (h.control he hrole).2 htarget
    · rfl
  rw [h.consistent'.isFixed_iff, h.consistent.isFixed_iff, h.lacks.op other hother]
  refine or_congr Iff.rfl (or_congr ?_ ?_)
  · exact exists_congr fun m => exists_congr fun role => and_congr_right (hkept ⟨m, other, role⟩)
  · exact exists_congr fun m => exists_congr fun role => and_congr_right (hkept ⟨other, m, role⟩)

theorem Prunes.mem_deadNodes {other : NodeId} (hother : other ≠ id) (hdead : other ∈ g.deadNodes) :
    other ∈ g'.deadNodes := by
  obtain ⟨hlive, hfloating, houtputs⟩ := DeadCode.mem_deadNodes.1 hdead
  refine DeadCode.mem_deadNodes.2 ⟨(h.lacks.has other).2 ⟨hlive, hother⟩, ?_, ?_⟩
  · rw [isFloating, Bool.not_eq_true', ← Bool.not_eq_true] at hfloating ⊢
    rwa [h.isFixed_iff hother]
  · refine List.eq_nil_iff_forall_not_mem.2 fun e he => ?_
    have hsource := h.consistent'.source_eq other e he
    subst hsource
    have hpos := multiplicity_pos.2 he
    rw [h.multiplicity] at hpos
    split at hpos
    · exact absurd hpos (Nat.lt_irrefl 0)
    · rw [multiplicity_pos, houtputs] at hpos
      cases hpos

/-- A dead node is no choice of a phi and no reason to keep one. -/
theorem Prunes.soleChoice? {phi source : NodeId} (hchoice : g'.soleChoice? phi = some source) :
    g.soleChoice? phi = some source := by
  have hg' := h.consistent'
  obtain ⟨hphi, hsource⟩ := NoChoice.live_of_soleChoice? hg' hchoice
  obtain ⟨hphi, hne⟩ := (h.lacks.has phi).1 hphi
  obtain ⟨hsource, hsourceNe⟩ := (h.lacks.has source).1 hsource
  rw [NoChoice.soleChoice?_eq_some_iff] at hchoice ⊢
  obtain ⟨hself, hcontrol, hinputs, hreads⟩ := hchoice
  have hmult : ∀ e, e.target ≠ id → g'.multiplicity e = g.multiplicity e := by
    intro e he
    rw [h.multiplicity, if_neg he]
  refine ⟨hself, ?_, fun n => ?_, ?_⟩
  · rw [← Bool.not_eq_true, hg'.hasControlOutput_iff] at hcontrol
    rw [← Bool.not_eq_true, h.consistent.hasControlOutput_iff]
    rintro ⟨m, role, hrole, hpos⟩
    refine hcontrol ⟨m, role, hrole, ?_⟩
    rwa [hmult _ (h.control hpos hrole).2]
  · rw [← hinputs n, h.consistent.mem_valueInputs, hg'.mem_valueInputs, h.consistent.mem_consumers, hg'.mem_consumers]
    refine exists_congr fun role => and_congr_right fun _ => ?_
    rw [hmult _ hne]
  · rw [h.consistent.mem_consumers]
    rw [hg'.mem_consumers] at hreads
    rintro ⟨role, hvalue, hpos⟩
    refine hreads ⟨role, hvalue, ?_⟩
    rwa [hmult _ hsourceNe]

end Prunes

/-- What the removal of a dead node keeps a run keeps: a node that is dead stays so until its turn. -/
theorem run_keeps (holds : Graph → Prop)
    (hstep : ∀ {s s' : Graph} {id : NodeId}, Prunes s s' id → holds s → holds s') {g : Graph} {r : Change}
    (hg : g.Consistent) (h : run g = .ok r) (hholds : holds g) : holds r.graph := by
  have hround : ∀ {s swept : Graph}, s.Consistent ∧ holds s → s.deadNodes.foldlM Graph.remove s = .ok swept →
      swept.Consistent ∧ holds swept := by
    intro s swept hs hswept
    have hfront : s.deadNodes.Nodup ∧ swept.Consistent ∧ holds swept ∧
        ∀ id ∈ s.deadNodes, id ∉ s.deadNodes → id ∈ swept.deadNodes := by
      refine foldlM_front (fun front t => s.deadNodes.Nodup ∧ t.Consistent ∧ holds t ∧
        ∀ id ∈ s.deadNodes, id ∉ front → id ∈ t.deadNodes) ?_ hswept
        ⟨s.nodup_ids.filter _, hs.1, hs.2, fun _ hid _ => hid⟩
      rintro front id back t t' hl ⟨hnodup, ht, htHolds, hdead⟩ hremove
      have hmem : id ∈ s.deadNodes := by
        rw [hl]
        exact List.mem_append_right front List.mem_cons_self
      have hnot : id ∉ front := by
        intro hid
        rw [hl] at hnodup
        exact (List.nodup_append.1 hnodup).2.2 id hid id List.mem_cons_self rfl
      have hprune : Prunes t t' id := ⟨ht, hdead id hmem hnot, hremove⟩
      refine ⟨hnodup, hprune.consistent', hstep hprune htHolds, fun other hother hlater => ?_⟩
      rw [List.mem_append, List.mem_singleton, not_or] at hlater
      exact hprune.mem_deadNodes hlater.2 (hdead other hother hlater.1)
    exact ⟨hfront.2.1, hfront.2.2.1⟩
  exact (sweep_keeps hround h ⟨hg, hholds⟩).2

theorem thins_run {g : Graph} {r : Change} (hg : g.Consistent) (h : run g = .ok r) : Thins g r.graph :=
  run_keeps (Thins g) (fun hprune hthins => hthins.trans (.of_lacks hprune.lacks)) hg h (.refl g)

end DeadCode

namespace NoChoice

/-- Visits take nodes away and leave the others alone. -/
theorem thins_visits {ids : List NodeId} {r r' : Change} (hr : r.graph.Consistent)
    (h : ids.foldlM visit r = .ok r') : Thins r.graph r'.graph := by
  have hall : r'.graph.Consistent ∧ Thins r.graph r'.graph := by
    refine foldlM_keeps (fun s : Change => s.graph.Consistent ∧ Thins r.graph s.graph) ?_ h ⟨hr, .refl r.graph⟩
    rintro before phi after ⟨hbefore, hthins⟩ hvisit
    rcases bypassed_of_visit hvisit hbefore with rfl | hbypass
    · exact ⟨hbefore, hthins⟩
    · exact ⟨hbypass.consistent, hthins.trans (.of_lacks hbypass.lacks)⟩
  exact hall.2

/-- What a run takes away are phis. -/
theorem thins_run {g : Graph} {r : Change} (hg : g.Consistent) (h : run g = .ok r) :
    Thins g r.graph ∧ ∀ id, g.has id = true → r.graph.has id = false → g.op id = .phi := by
  refine ⟨thins_visits (r := ⟨g, 0⟩) hg h, fun id hid hgone => ?_⟩
  -- Only the phis are visited.
  by_contra hop
  have hnot : id ∉ g.find .phi := fun hmem => hop ((mem_find_iff (by decide)).1 hmem)
  rw [((Visited.refl hg).foldlM h).live id hid hnot] at hgone
  cases hgone

end NoChoice

/-! ## Idle passes -/

/-- A pass has nothing to do on a graph, and says so. -/
def Idle (p : Pass) (g : Graph) : Prop := p.run g = .ok ⟨g, 0⟩

theorem idle_deadCode_iff {g : Graph} : Idle .deadCode g ↔ g.deadNodes = [] := by
  constructor
  · intro h
    exact DeadCode.deadNodes_eq_nil_of_count (mapError_eq_ok.1 h) rfl
  · intro hdead
    exact mapError_eq_ok.2 (DeadCode.run_of_deadNodes hdead)

theorem idle_noChoicePhis_iff {g : Graph} :
    Idle .noChoicePhis g ↔ ∀ phi, g.op phi = .phi → g.soleChoice? phi = none := by
  have hfind : (∀ phi ∈ g.find .phi, g.soleChoice? phi = none) ↔ ∀ phi, g.op phi = .phi → g.soleChoice? phi = none :=
    forall_congr' fun phi => by rw [mem_find_iff (by decide)]
  rw [← hfind]
  constructor
  · intro h
    rcases NoChoice.foldlM_visit_count (mapError_eq_ok.1 h) with hlt | ⟨-, hnone⟩
    · exact absurd hlt (Nat.lt_irrefl 0)
    · exact hnone
  · intro hnone
    exact mapError_eq_ok.2 (NoChoice.foldlM_visit_of_none (r := ⟨g, 0⟩) hnone)

theorem idle_taggingLowering_iff {g : Graph} : Idle .taggingLowering g ↔ ∀ id, ¬ Tagging.Lowerable g id := by
  constructor
  · intro h
    exact Tagging.not_lowerable_of_count (r := ⟨g, 0⟩) h rfl
  · exact Tagging.run_of_not_lowerable

/-- Where nothing is to be lowered, and nothing is new, nothing is to be lowered. -/
theorem Idle.taggingLowering_of_thins {g g' : Graph} (h : Idle .taggingLowering g) (hthins : Thins g g') :
    Idle .taggingLowering g' := by
  rw [idle_taggingLowering_iff] at h ⊢
  rintro id (hadd | ⟨hkind, htest⟩)
  · exact h id (.inl (hthins.op_eq (by decide) hadd))
  · refine h id (.inr ⟨hthins.op_eq (by decide) hkind, ?_⟩)
    rw [Tagging.isFixnumTest, ← hthins.props id (has_of_op_ne_invalid (by rw [hkind]; decide))]
    exact htest

/-- Removing dead code gives no other pass something to do. -/
theorem Idle.after_deadCode {p : Pass} {g : Graph} {r : Change} (hidle : Idle p g) (hg : g.Consistent)
    (h : Pass.run .deadCode g = .ok r) : Idle p r.graph := by
  have hrun := mapError_eq_ok.1 h
  cases p with
  | deadCode => exact idle_deadCode_iff.2 (DeadCode.deadNodes_sweep hrun hg (Nat.le_refl _))
  | noChoicePhis =>
      rw [idle_noChoicePhis_iff] at hidle ⊢
      refine DeadCode.run_keeps (fun s => ∀ phi, s.op phi = .phi → s.soleChoice? phi = none)
        (fun hprune hnone phi hphi => ?_) hg hrun hidle
      rw [Option.eq_none_iff_forall_ne_some]
      intro source hsource
      have hbefore := hprune.soleChoice? hsource
      rw [hnone phi ((Thins.of_lacks hprune.lacks).op_eq (by decide) hphi)] at hbefore
      cases hbefore
  | taggingLowering => exact hidle.taggingLowering_of_thins (DeadCode.thins_run hg hrun)

/-- Once lowering has run it is idle, and it stays so. -/
theorem Idle.taggingLowering_after {p : Pass} {g : Graph} {r : Change} (hg : g.Consistent) (h : p.run g = .ok r)
    (hidle : p = .taggingLowering ∨ Idle .taggingLowering g) : Idle .taggingLowering r.graph := by
  cases p with
  | deadCode =>
      exact (hidle.resolve_left (by simp)).taggingLowering_of_thins (DeadCode.thins_run hg (mapError_eq_ok.1 h))
  | noChoicePhis =>
      exact (hidle.resolve_left (by simp)).taggingLowering_of_thins (NoChoice.thins_run hg (mapError_eq_ok.1 h)).1
  | taggingLowering => exact idle_taggingLowering_iff.2 (Tagging.not_lowerable_of_run hg h)

/-- No pass makes a phi. -/
theorem phiCount_le_of_run {p : Pass} {g : Graph} {r : Change} (hg : g.Consistent) (h : p.run g = .ok r) :
    r.graph.phiCount ≤ g.phiCount := by
  apply phiCount_le
  intro id hid
  cases p with
  | deadCode => exact (DeadCode.thins_run hg (mapError_eq_ok.1 h)).op_eq (by decide) hid
  | noChoicePhis => exact (NoChoice.thins_run hg (mapError_eq_ok.1 h)).1.op_eq (by decide) hid
  | taggingLowering => exact ((Tagging.lowers_run hg h).1.unmade (by decide) hid).1

/-- A pass that runs where lowering is idle takes a phi away, or is idle afterwards and keeps every
    other pass so. -/
theorem idle_or_phiCount_lt {p : Pass} {g : Graph} {r : Change} (hg : g.Consistent) (h : p.run g = .ok r)
    (hquiet : p = .taggingLowering → Idle .taggingLowering g) :
    r.graph.phiCount < g.phiCount ∨ (Idle p r.graph ∧ ∀ q, Idle q g → Idle q r.graph) := by
  -- A pass that changes nothing was idle before and leaves the graph to the others.
  have hsame : r.count = 0 → Idle p r.graph ∧ ∀ q, Idle q g → Idle q r.graph := by
    intro hcount
    obtain rfl := graph_eq_of_count h hcount
    exact ⟨h, fun _ hq => hq⟩
  cases p with
  | deadCode =>
      have hdead := DeadCode.deadNodes_sweep (mapError_eq_ok.1 h) hg (Nat.le_refl _)
      exact .inr ⟨idle_deadCode_iff.2 hdead, fun q hq => hq.after_deadCode hg h⟩
  | noChoicePhis =>
      rcases Nat.eq_zero_or_pos r.count with hcount | hcount
      · exact .inr (hsame hcount)
      · left
        obtain ⟨hthins, hphi⟩ := NoChoice.thins_run hg (mapError_eq_ok.1 h)
        obtain ⟨id, hid, hgone⟩ := exists_gone_of_count hg h hcount
        exact phiCount_lt (fun other hother => hthins.op_eq (by decide) hother) (hphi id hid hgone) hgone
  | taggingLowering =>
      have hidle : Pass.run .taggingLowering g = .ok ⟨g, 0⟩ := hquiet rfl
      rw [hidle] at h
      cases h
      exact .inr (hsame rfl)

/-- Where lowering is idle no pass fails. -/
theorem exists_run {g : Graph} (hg : g.Consistent) (p : Pass) (hquiet : p = .taggingLowering → Idle .taggingLowering g) :
    ∃ r, p.run g = .ok r := by
  cases hrun : p.run g with
  | ok r => exact ⟨r, rfl⟩
  | error cause =>
      obtain ⟨rfl, -⟩ := (run_fails_iff hg p).1 ⟨cause, hrun⟩
      have hidle : Pass.run .taggingLowering g = .ok ⟨g, 0⟩ := hquiet rfl
      rw [hidle] at hrun
      cases hrun

end SeaOfNodes.Pass
