/-
  SeaOfNodes.Proofs.Pass.DeadSet

  Which nodes the removal of dead code takes away.  A floating node is dead when every edge
  that leaves it leads to a dead node; the dead nodes are the least such set, so floating
  nodes that feed each other in a circle are not among them.  A sweep removes the dead nodes
  from the back, the last readers first.  It never changes what is left: no edge comes from a
  dead node to a live one, and no control is at a dead node.
-/
import SeaOfNodes.Proofs.Pass.Idle

namespace SeaOfNodes.Pass.DeadCode

open SeaOfNodes.Graph

/-! ## Dead nodes -/

/-- The least set of live floating nodes that has a node as soon as all edges that leave the node
    lead into the set. -/
inductive Dead (g : Graph) : NodeId → Prop
  | intro {id : NodeId} (hlive : g.has id = true) (hfloating : g.isFloating id = true)
      (hleads : ∀ e ∈ g.outputs id, Dead g e.target) : Dead g id

theorem Dead.has {g : Graph} {id : NodeId} (h : Dead g id) : g.has id = true := by
  cases h
  assumption

/-! ## A sweep -/

/-- What holds while dead nodes are removed: only dead nodes are gone, and a node that is left is as
    it was, but for the edges that led to those gone. -/
structure Swept (g s : Graph) : Prop where
  thins : Thins g s
  gone : ∀ id, g.has id = true → s.has id = false → Dead g id
  isFixed : ∀ id, s.has id = true → s.isFixed id = g.isFixed id
  inputs : ∀ id, s.has id = true → s.inputs id = g.inputs id
  outputs : ∀ id, s.has id = true → s.outputs id = (g.outputs id).filter fun e => s.has e.target

namespace Swept

theorem refl {g : Graph} (hg : g.Consistent) : Swept g g where
  thins := .refl g
  gone id hid hgone := by
    rw [hid] at hgone
    cases hgone
  isFixed _ _ := rfl
  inputs _ _ := rfl
  outputs id _ := (List.filter_eq_self.2 fun e he => hg.has_target he).symm

/-- An edge that left a node and is gone led to a dead one. -/
theorem dead_of_outputs_eq_nil {g s : Graph} (hg : g.Consistent) (h : Swept g s) {id : NodeId}
    (hid : s.has id = true) (houtputs : s.outputs id = []) {e : Edge} (he : e ∈ g.outputs id) :
    Dead g e.target := by
  rw [h.outputs id hid, List.filter_eq_nil_iff] at houtputs
  refine h.gone e.target (hg.has_target he) ?_
  simpa using houtputs e he

/-- Removing one more dead node keeps it. -/
theorem prune {g s s' : Graph} {id : NodeId} (hg : g.Consistent) (h : Swept g s) (hprune : Prunes s s' id) :
    Swept g s' := by
  have hstays : ∀ other, s'.has other = true → s.has other = true ∧ other ≠ id :=
    fun other hother => (hprune.lacks.has other).1 hother
  obtain ⟨hlive, hfloating, houtputs⟩ := mem_deadNodes.1 hprune.dead
  refine ⟨h.thins.trans (.of_lacks hprune.lacks), fun other hother hgone => ?_, fun other hother => ?_,
    fun other hother => ?_, fun other hother => ?_⟩
  · by_cases hbefore : s.has other = true
    · -- Of the nodes that were left only the pruned one goes.
      obtain rfl : other = id := by
        by_contra hne
        rw [(hprune.lacks.has other).2 ⟨hbefore, hne⟩] at hgone
        cases hgone
      refine .intro hother ?_ fun e he => h.dead_of_outputs_eq_nil hg hlive houtputs he
      rw [isFloating, ← h.isFixed other hlive]
      exact hfloating
    · exact h.gone other hother (by simpa using hbefore)
  · obtain ⟨hother, hne⟩ := hstays other hother
    rw [← h.isFixed other hother, Bool.eq_iff_iff, hprune.isFixed_iff hne]
  · obtain ⟨hother, hne⟩ := hstays other hother
    rw [hprune.consistent.inputs_remove houtputs hprune.removed hne, h.inputs other hother]
  · obtain ⟨hother, hne⟩ := hstays other hother
    rw [hprune.consistent.outputs_remove hprune.removed hne, h.outputs other hother, List.filter_filter]
    refine List.filter_congr fun e _ => ?_
    rw [Bool.eq_iff_iff, Bool.and_eq_true, decide_eq_true_eq, hprune.lacks.has, and_comm]

/-- Where no node is left without edges that leave it, no dead node is left: a dead node whose
    readers are gone has none. -/
theorem has_eq_false_of_dead {g s : Graph} (h : Swept g s) (hdone : s.deadNodes = []) {id : NodeId}
    (hdead : Dead g id) : s.has id = false := by
  induction hdead with
  | @intro id _ hfloating _ ih =>
      -- Its readers are gone, so it would be found dead itself.
      by_contra hlive
      rw [Bool.not_eq_false] at hlive
      have houtputs : s.outputs id = [] := by
        rw [h.outputs id hlive, List.filter_eq_nil_iff]
        intro e he
        rw [ih e he]
        exact Bool.false_ne_true
      have hfloats : s.isFloating id = true := by
        rw [isFloating, h.isFixed id hlive]
        exact hfloating
      have hmem : id ∈ s.deadNodes := mem_deadNodes.2 ⟨hlive, hfloats, houtputs⟩
      rw [hdone] at hmem
      cases hmem

end Swept

theorem swept_run {g : Graph} {r : Change} (hg : g.Consistent) (h : run g = .ok r) : Swept g r.graph :=
  run_keeps (Swept g) (fun hprune hswept => hswept.prune hg hprune) hg h (.refl hg)

/-- A sweep that has ended for want of dead nodes ends alike with more rounds. -/
theorem sweep_of_le {rounds more removed : Nat} {g : Graph} {r : Change} (h : sweep rounds g removed = .ok r)
    (hdone : r.graph.deadNodes = []) (hle : rounds ≤ more) : sweep more g removed = .ok r := by
  induction rounds generalizing more g removed with
  | zero =>
      -- Without rounds nothing was removed, and nothing was dead.
      cases h
      cases more with
      | zero => rfl
      | succ more => rw [sweep, hdone]
  | succ rounds ih =>
      obtain ⟨more, rfl⟩ : ∃ n, more = n + 1 := ⟨more - 1, by omega⟩
      rw [sweep] at h ⊢
      split at h
      · exact h
      · obtain ⟨swept, hswept, hrest⟩ := bind_eq_ok.1 h
        rw [hswept]
        exact ih hrest (by omega)

/-! ## The result -/

/-- The dead nodes of a graph are gone.  Every other node is what it was; all that it read is left,
    and of the edges that leave it those to nodes that are left, in their order. -/
structure Cleared (g s : Graph) : Prop where
  has : ∀ id, s.has id = true ↔ g.has id = true ∧ ¬ Dead g id
  op : ∀ id, s.has id = true → s.op id = g.op id
  props : ∀ id, s.has id = true → s.props id = g.props id
  isFixed : ∀ id, s.has id = true → s.isFixed id = g.isFixed id
  inputs : ∀ id, s.has id = true → s.inputs id = g.inputs id
  outputs : ∀ id, s.has id = true → s.outputs id = (g.outputs id).filter fun e => s.has e.target

theorem Swept.cleared {g s : Graph} (h : Swept g s) (hdone : s.deadNodes = []) : Cleared g s where
  has id := by
    constructor
    · intro hid
      refine ⟨h.thins.has id hid, fun hdead => ?_⟩
      rw [h.has_eq_false_of_dead hdone hdead] at hid
      cases hid
    · rintro ⟨hid, hstays⟩
      by_contra hgone
      exact hstays (h.gone id hid (by simpa using hgone))
  op := h.thins.op
  props := h.thins.props
  isFixed := h.isFixed
  inputs := h.inputs
  outputs := h.outputs

/-- Removing dead code succeeds and removes exactly the dead nodes.  It ends by itself, however many
    rounds more it is given than there are nodes; it reports a change exactly if some node is dead, and
    run again it changes nothing and reports so. -/
theorem run_clears {g : Graph} (hg : g.Consistent) :
    ∃ r, run g = .ok r ∧ (∀ rounds, g.size ≤ rounds → sweep rounds g 0 = .ok r) ∧ r.graph.deadNodes = [] ∧
      Cleared g r.graph ∧ (r.modified = true ↔ ∃ id, Dead g id) ∧
      ∃ again, run r.graph = .ok again ∧ again.modified = false ∧ again.graph = r.graph := by
  obtain ⟨r, hrun⟩ : ∃ r, run g = .ok r := exists_sweep g.size hg 0
  have hdone : r.graph.deadNodes = [] := deadNodes_sweep hrun hg (Nat.le_refl _)
  have hcleared := (swept_run hg hrun).cleared hdone
  have hsize : r.graph.size + r.count = g.size := size_sweep hrun hg
  refine ⟨r, hrun, fun rounds hrounds => sweep_of_le hrun hdone hrounds, hdone, hcleared, ?_,
    ⟨r.graph, 0⟩, run_of_deadNodes hdone, rfl, rfl⟩
  rw [Change.modified, decide_eq_true_eq]
  constructor
  · intro hcount
    -- As many nodes are gone as are counted, and only dead ones go.
    have hlt : r.graph.size < g.size := by omega
    obtain ⟨id, hid, hgone⟩ := exists_gone_of_size_lt hlt
    exact ⟨id, (swept_run hg hrun).gone id hid hgone⟩
  · rintro ⟨id, hdead⟩
    by_contra hcount
    obtain rfl := graph_eq_of_count (p := .deadCode) (mapError_eq_ok.2 hrun) (by omega)
    exact ((hcleared.has id).1 hdead.has).2 hdead

/-- A sum of a sum that nobody reads, and two sums that read each other. -/
def unreadSums : Graph :=
  Graph.assemble [.start, .finish, .arg, .add, .add, .add, .add]
    [⟨0, 1, .control⟩, ⟨2, 1, .value⟩, ⟨2, 3, .valueN 0⟩, ⟨2, 3, .valueN 1⟩, ⟨2, 4, .valueN 0⟩, ⟨3, 4, .valueN 1⟩,
      ⟨2, 5, .valueN 0⟩, ⟨6, 5, .valueN 1⟩, ⟨5, 6, .valueN 0⟩]

/-- The unread sums go, the outer one first.  Those that read each other stay, and with them all edges
    of the argument but those to the unread sums. -/
theorem run_unreadSums_clears :
    unreadSums.Consistent ∧ Dead unreadSums 3 ∧ ¬ Dead unreadSums 5 ∧
      ∃ r again, run unreadSums = .ok r ∧ r.modified = true ∧ r.graph.ids = [0, 1, 2, 5, 6] ∧
        r.graph.outputs 2 = [⟨2, 1, .value⟩, ⟨2, 5, .valueN 0⟩] ∧
        run r.graph = .ok again ∧ again.modified = false := by
  have hconsistent : unreadSums.Consistent := consistent_assemble (by decide)
  have houter : Dead unreadSums 4 := .intro (by decide) (by decide) fun _ he => absurd he List.not_mem_nil
  have hinner : Dead unreadSums 3 := by
    refine .intro (by decide) (by decide) fun e he => ?_
    obtain rfl : e = ⟨3, 4, .valueN 1⟩ := List.mem_singleton.1 he
    exact houter
  obtain ⟨r, hrun, -, -, hcleared, hmodified, again, hagain, hquiet, -⟩ := run_clears hconsistent
  have hleft : (run unreadSums).toOption.map (fun r => r.graph.ids) = some [0, 1, 2, 5, 6] := by decide +kernel
  rw [hrun] at hleft
  have hids : r.graph.ids = [0, 1, 2, 5, 6] := Option.some.inj hleft
  have hhas : ∀ id, r.graph.has id = decide (id ∈ r.graph.ids) := by
    intro id
    rw [Bool.eq_iff_iff, decide_eq_true_eq, mem_ids]
  rw [hids] at hhas
  refine ⟨hconsistent, hinner, ((hcleared.has 5).1 (hhas 5)).2, r, again, hrun,
    hmodified.2 ⟨3, hinner⟩, hids, ?_, hagain, hquiet⟩
  rw [hcleared.outputs 2 (hhas 2)]
  simp only [hhas]
  decide

end SeaOfNodes.Pass.DeadCode
