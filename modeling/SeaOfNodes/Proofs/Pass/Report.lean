/-
  SeaOfNodes.Proofs.Pass.Report

  What a pass says about itself.  A pass counts the places that it changes: the nodes that
  it takes away or, for lowering, replaces.  So one that counts none has left the graph as
  it was, and one that counts some has left a node less among those that there were.  Only
  lowering may fail, and does exactly when an addition has not two operands.
-/
import SeaOfNodes.Proofs.Pass.LoweredOperands
import SeaOfNodes.Proofs.Pass.Totality

namespace SeaOfNodes.Graph

/-- Of the nodes of a larger graph one is not in a smaller one. -/
theorem exists_gone_of_size_lt {g g' : Graph} (h : g'.size < g.size) : ∃ id, g.has id = true ∧ g'.has id = false := by
  by_contra hnone
  have hsub : g.ids ⊆ g'.ids := by
    intro id hid
    rw [mem_ids] at hid ⊢
    by_contra hgone
    exact hnone ⟨id, hid, by simpa using hgone⟩
  have hle := (List.subperm_of_subset g.nodup_ids hsub).length_le
  rw [size_eq_length_ids, size_eq_length_ids] at h
  omega

end SeaOfNodes.Graph

namespace SeaOfNodes.Pass

open SeaOfNodes.Graph

/-! ## Passes that take nodes away -/

namespace DeadCode

theorem size_sweep {rounds removed : Nat} {g : Graph} {r : Change} (h : sweep rounds g removed = .ok r)
    (hg : g.Consistent) : r.graph.size + r.count = g.size + removed := by
  have hkept : r.graph.Consistent ∧ r.graph.size + r.count = g.size + removed := by
    refine sweep_keeps_count (fun s n => s.Consistent ∧ s.size + n = g.size + removed) ?_ h ⟨hg, rfl⟩
    rintro s swept n ⟨hs, hsum⟩ hswept
    have hround := size_foldlM_remove hswept hs
    exact ⟨foldlM_keeps Consistent (fun _ _ _ hb hremove => hb.remove hremove) hswept hs, by omega⟩
  exact hkept.2

theorem le_count_sweep {rounds removed : Nat} {g : Graph} {r : Change} (h : sweep rounds g removed = .ok r) :
    removed ≤ r.count :=
  sweep_keeps_count (fun _ n => removed ≤ n) (fun hle _ => Nat.le_add_right_of_le hle) h (Nat.le_refl removed)

/-- A sweep that finds a dead node counts it. -/
theorem deadNodes_eq_nil_of_count {g : Graph} {r : Change} (h : run g = .ok r) (hcount : r.count = 0) :
    g.deadNodes = [] := by
  by_contra hdead
  have hpos : 0 < g.deadNodes.length := List.length_pos_of_ne_nil hdead
  -- There are nodes, so there is a first round.
  have hsize : 0 < g.size := by
    have hle : g.deadNodes.length ≤ g.ids.length := List.length_filter_le _ _
    rw [size_eq_length_ids]
    omega
  obtain ⟨rounds, hrounds⟩ := Nat.exists_eq_succ_of_ne_zero hsize.ne'
  rw [run, hrounds, sweep] at h
  split at h
  · contradiction
  · obtain ⟨swept, -, hrest⟩ := bind_eq_ok.1 h
    have hle := le_count_sweep hrest
    omega

/-- Where nothing is dead a run changes nothing and says so. -/
theorem run_of_deadNodes {g : Graph} (hdead : g.deadNodes = []) : run g = .ok ⟨g, 0⟩ := by
  rw [run]
  cases g.size with
  | zero => rfl
  | succ rounds => rw [sweep, hdead]

end DeadCode

namespace NoChoice

theorem size_visit {r r' : Change} {phi : NodeId} (h : visit r phi = .ok r') (hr : r.graph.Consistent) :
    r'.graph.size + r'.count = r.graph.size + r.count := by
  rcases visit_law h hr with rfl | ⟨source, hchoice, hlacks, -, -⟩
  · rfl
  · have hsize := hlacks.size_eq
    rcases visit_eq_ok h with ⟨hnone, -⟩ | ⟨_, _, -, -, -, hcount⟩
    · rw [hchoice] at hnone
      cases hnone
    · omega

theorem size_run {g : Graph} {r : Change} (h : run g = .ok r) (hg : g.Consistent) :
    r.graph.size + r.count = g.size := by
  have hrun : r.graph.Consistent ∧ r.graph.size + r.count = g.size := by
    refine foldlM_keeps (fun s : Change => s.graph.Consistent ∧ s.graph.size + s.count = g.size) ?_ h ⟨hg, rfl⟩
    rintro before phi after ⟨hbefore, hsize⟩ hvisit
    exact ⟨consistent_visit hvisit hbefore, (size_visit hvisit hbefore).trans hsize⟩
  exact hrun.2

/-- A visit counts the phi that it bypasses, and leaves one that it does not count. -/
theorem visit_count {r r' : Change} {phi : NodeId} (h : visit r phi = .ok r') :
    (r.graph.soleChoice? phi = none ∧ r' = r) ∨ r'.count = r.count + 1 := by
  rcases visit_eq_ok h with hleft | ⟨_, _, -, -, -, hcount⟩
  · exact .inl hleft
  · exact .inr hcount

theorem foldlM_visit_count {phis : List NodeId} {r r' : Change} (h : phis.foldlM visit r = .ok r') :
    r.count < r'.count ∨ (r' = r ∧ ∀ phi ∈ phis, r.graph.soleChoice? phi = none) := by
  induction phis generalizing r with
  | nil =>
      rw [List.foldlM_nil, pure_eq_ok] at h
      exact .inr ⟨h.symm, by simp⟩
  | cons phi rest ih =>
      rw [List.foldlM_cons] at h
      obtain ⟨next, hnext, hrest⟩ := bind_eq_ok.1 h
      have hlater := ih hrest
      rcases visit_count hnext with ⟨hnone, rfl⟩ | hcount
      · rcases hlater with hlt | ⟨rfl, hrestNone⟩
        · exact .inl hlt
        · exact .inr ⟨rfl, List.forall_mem_cons.2 ⟨hnone, hrestNone⟩⟩
      · left
        rcases hlater with hlt | ⟨rfl, -⟩ <;> omega

theorem foldlM_visit_of_none {phis : List NodeId} {r : Change}
    (hnone : ∀ phi ∈ phis, r.graph.soleChoice? phi = none) : phis.foldlM visit r = .ok r := by
  induction phis with
  | nil => rfl
  | cons phi rest ih =>
      obtain ⟨hphi, hrest⟩ := List.forall_mem_cons.1 hnone
      rw [List.foldlM_cons, visit, hphi]
      exact ih hrest

end NoChoice

/-! ## Lowering -/

namespace Tagging

/-- A run counts the nodes that it has to lower. -/
theorem count_run {g : Graph} {r : Change} (h : run g = .ok r) :
    r.count = ((g.find .kindIs).filter (isFixnumTest g)).length + (g.find .fixnumAdd).length := by
  obtain ⟨-, _, -, -, hcount⟩ := run_eq_ok h
  exact hcount

theorem not_lowerable_of_count {g : Graph} {r : Change} (h : run g = .ok r) (hcount : r.count = 0) (id : NodeId) :
    ¬ Lowerable g id := by
  rw [count_run h, Nat.add_eq_zero_iff, List.length_eq_zero_iff, List.length_eq_zero_iff] at hcount
  obtain ⟨htests, hadds⟩ := hcount
  rintro (hadd | ⟨hkind, htest⟩)
  · have hmem : id ∈ g.find .fixnumAdd := (mem_find_iff (by decide)).2 hadd
    rw [hadds] at hmem
    cases hmem
  · have hmem : id ∈ (g.find .kindIs).filter (isFixnumTest g) :=
      List.mem_filter.2 ⟨(mem_find_iff (by decide)).2 hkind, htest⟩
    rw [htests] at hmem
    cases hmem

/-- However many other nodes there are to lower, one malformed addition makes a run fail. -/
theorem run_fails_of_malformed {g : Graph} {add : NodeId} (h : Malformed g add) : ∃ cause, run g = .error cause := by
  cases hrun : run g with
  | error cause => exact ⟨cause, rfl⟩
  | ok r => exact absurd ((run_phases hrun).1 add ((mem_find_iff (by decide)).2 h.1)) h.2

end Tagging

/-! ## Any pass -/

/-- A pass that counts nothing has changed nothing. -/
theorem graph_eq_of_count {p : Pass} {g : Graph} {r : Change} (h : p.run g = .ok r) (hcount : r.count = 0) :
    r = ⟨g, 0⟩ := by
  cases p with
  | deadCode =>
      have hrun := mapError_eq_ok.1 h
      rw [DeadCode.run_of_deadNodes (DeadCode.deadNodes_eq_nil_of_count hrun hcount)] at hrun
      exact (Except.ok.inj hrun).symm
  | noChoicePhis =>
      rcases NoChoice.foldlM_visit_count (mapError_eq_ok.1 h) with hlt | ⟨hsame, -⟩
      · dsimp only at hlt
        omega
      · exact hsame
  | taggingLowering =>
      have hrun : Tagging.run g = .ok r := h
      rw [Tagging.run_of_not_lowerable (Tagging.not_lowerable_of_count hrun hcount)] at hrun
      exact (Except.ok.inj hrun).symm

/-- A pass that counts something has taken a node out of the graph. -/
theorem exists_gone_of_count {p : Pass} {g : Graph} {r : Change} (hg : g.Consistent) (h : p.run g = .ok r)
    (hcount : 0 < r.count) : ∃ id, g.has id = true ∧ r.graph.has id = false := by
  cases p with
  | deadCode =>
      have hsize := DeadCode.size_sweep (mapError_eq_ok.1 h) hg
      apply exists_gone_of_size_lt
      omega
  | noChoicePhis =>
      have hsize := NoChoice.size_run (mapError_eq_ok.1 h) hg
      apply exists_gone_of_size_lt
      omega
  | taggingLowering =>
      have hrun : Tagging.run g = .ok r := h
      -- What is counted is to be lowered, and what is lowered is replaced.
      have hsome : ∃ id, Tagging.Lowerable g id := by
        by_contra hnone
        rw [Tagging.run_of_not_lowerable (not_exists.1 hnone)] at hrun
        cases hrun
        exact absurd hcount (Nat.lt_irrefl 0)
      obtain ⟨id, hid⟩ := hsome
      obtain ⟨named, done, hreplaces, hdone⟩ := Tagging.replaces_of_run hg hrun
      refine ⟨id, ?_, (hreplaces.replaced id ((hdone id).2 hid)).1⟩
      apply has_of_op_ne_invalid
      rcases hid with hadd | ⟨hkind, -⟩
      · rw [hadd]
        decide
      · rw [hkind]
        decide

/-- Only lowering fails, and does exactly when there is a malformed addition. -/
theorem run_fails_iff {g : Graph} (hg : g.Consistent) (p : Pass) :
    (∃ cause, p.run g = .error cause) ↔ p = .taggingLowering ∧ ∃ add, Tagging.Malformed g add := by
  constructor
  · rintro ⟨cause, h⟩
    obtain ⟨hp, add, hadd, -⟩ := malformed_of_run_error hg h
    exact ⟨hp, add, hadd⟩
  · rintro ⟨rfl, add, hadd⟩
    exact Tagging.run_fails_of_malformed hadd

end SeaOfNodes.Pass
