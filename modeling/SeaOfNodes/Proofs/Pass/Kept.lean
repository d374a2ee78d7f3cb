/-
  SeaOfNodes.Proofs.Pass.Kept

  What every pass keeps, whatever it rewrites: which node is the start, that no edge is
  part of a schedule, that values are read off nodes that have one, and that no property
  but a source line is written.  It is proved for the removal of a node, for the bypass of
  a phi and for each step of lowering; runs are sequences of these.
-/
import SeaOfNodes.Pass.Runner
import SeaOfNodes.Proofs.Pass.Dangling
import SeaOfNodes.Proofs.Pass.LoweredOrder

namespace SeaOfNodes.Graph

/-- What passes keep when they make one graph of another. -/
structure Keeps (g g' : Graph) : Prop where
  roles : g.Unscheduled → g'.Unscheduled
  valued : g.Valued → g'.Valued
  starts : ∀ id, g'.op id = .start ↔ g.op id = .start
  unset : ∀ {key : String}, key ≠ Props.line → (∀ id, (g.props id).has key = false) →
    ∀ id, (g'.props id).has key = false

namespace Keeps

theorem refl (g : Graph) : Keeps g g := ⟨id, id, fun _ => Iff.rfl, fun _ h => h⟩

theorem trans {g g' g'' : Graph} (h : Keeps g g') (h' : Keeps g' g'') : Keeps g g'' where
  roles hg := h'.roles (h.roles hg)
  valued hg := h'.valued (h.valued hg)
  starts id := (h'.starts id).trans (h.starts id)
  unset hkey hg := h'.unset hkey (h.unset hkey hg)

theorem length_find_start {g g' : Graph} (h : Keeps g g') : (g'.find .start).length = (g.find .start).length :=
  length_find_eq (by decide) h.starts

end Keeps

/-! ## A node goes -/

section Lacks

variable {g g' : Graph} {id : NodeId} (h : Lacks g g' id)
include h

theorem Lacks.op_start_iff (hop : g.op id ≠ .start) (other : NodeId) : g'.op other = .start ↔ g.op other = .start := by
  by_cases hother : other = id
  · subst hother
    exact iff_of_false (op_ne_of_fresh h.has_eq_false (by decide)) hop
  · rw [h.op other hother]

theorem Lacks.unset {key : String} (hunset : ∀ id, (g.props id).has key = false) (other : NodeId) :
    (g'.props other).has key = false := by
  by_cases hother : other = id
  · subst hother
    rw [props_eq_empty h.has_eq_false]
    rfl
  · rw [h.props other hother]
    exact hunset other

/-- The rest of the graph keeps its values if no edge is new but one that reads a node that was read. -/
theorem Lacks.keeps (hop : g.op id ≠ .start)
    (hedge : ∀ e, 0 < g'.multiplicity e → e.source ≠ id ∧
      (0 < g.multiplicity e ∨ ∃ x, 0 < g.multiplicity x ∧ x.source = e.source ∧ x.role.isValue = true)
      ∧ ∃ x, 0 < g.multiplicity x ∧ x.role = e.role) : Keeps g g' where
  roles hroles e he := by
    obtain ⟨-, -, x, hx, hrole⟩ := hedge e he
    rw [← hrole]
    exact hroles x hx
  valued hvalued e he hrole := by
    obtain ⟨hne, hread, -⟩ := hedge e he
    have hop : g'.op e.source = g.op e.source := h.op e.source hne
    rw [producesValue, hop]
    rcases hread with hold | ⟨x, hx, hsource, hvalue⟩
    · exact hvalued e hold hrole
    · rw [← hsource]
      exact hvalued x hx hvalue
  starts := h.op_start_iff hop
  unset _ := h.unset

end Lacks

theorem Keeps.remove {g g' : Graph} {id : NodeId} (hg : g.Consistent) (h : g.remove id = .ok g')
    (hop : g.op id ≠ .start) : Keeps g g' := by
  obtain ⟨hlacks, hremove⟩ := hg.remove_law h
  refine hlacks.keeps hop fun e he => ?_
  rw [hremove] at he
  split at he
  · exact absurd he (Nat.lt_irrefl 0)
  · rename_i hends
    exact ⟨(not_or.1 hends).1, .inl he, e, he, rfl⟩

end SeaOfNodes.Graph

namespace SeaOfNodes.Pass

open SeaOfNodes.Graph

/-- Sweeping takes floating nodes only, and a start is fixed. -/
theorem DeadCode.keeps_sweep {rounds removed : Nat} {g : Graph} {r : Change} (hg : g.Consistent)
    (h : sweep rounds g removed = .ok r) : Keeps g r.graph := by
  have hdead : ∀ {s : Graph}, ∀ id ∈ s.deadNodes, s.op id ≠ .start := by
    intro s id hid hop
    have hfloating : s.isFloating id = true := by
      simpa using (Bool.and_eq_true_iff.1 (List.mem_filter.1 hid).2).1
    simp [isFloating, isFixed, hop, Op.isFixed] at hfloating
  have hround : ∀ {s swept : Graph}, s.Consistent ∧ Keeps g s → s.deadNodes.foldlM Graph.remove s = .ok swept →
      swept.Consistent ∧ Keeps g swept := by
    intro s swept hs hswept
    -- What was no start before the round is none during it.
    have hkept : swept.Consistent ∧ Keeps s swept := by
      refine foldlM_keeps_of_mem (fun t : Graph => t.Consistent ∧ Keeps s t) ?_ hswept ⟨hs.1, .refl s⟩
      rintro t id hid t' ⟨ht, hkept⟩ hremove
      have hop : t.op id ≠ .start := fun hop => hdead id hid ((hkept.starts id).1 hop)
      exact ⟨ht.remove hremove, hkept.trans (.remove ht hremove hop)⟩
    exact ⟨hkept.1, hs.2.trans hkept.2⟩
  exact (sweep_keeps hround h ⟨hg, .refl g⟩).2

/-! ## Bypassing phis -/

namespace NoChoice

/-- What the readers of a phi read in its stead was read by the phi. -/
theorem keeps_visit {r r' : Change} {phi : NodeId} (hr : r.graph.Consistent) (hop : r.graph.op phi ≠ .start)
    (h : visit r phi = .ok r') : Keeps r.graph r'.graph := by
  rcases visit_law h hr with rfl | ⟨source, hchoice, hlacks, -, hlaw⟩
  · exact .refl r'.graph
  obtain ⟨-, -, hinputs⟩ := soleChoice?_eq_some hchoice
  obtain ⟨x, hx, hsource⟩ := List.mem_map.1 ((hinputs source).2 rfl)
  obtain ⟨hx, hvalue⟩ := List.mem_filter.1 hx
  have hread : 0 < r.graph.multiplicity x := multiplicity_pos.2 (hr.mem_outputs hx)
  refine hlacks.keeps hop fun e he => ?_
  rw [hlaw] at he
  split at he
  · exact absurd he (Nat.lt_irrefl 0)
  · rename_i hends
    refine ⟨(not_or.1 hends).1, ?_⟩
    split at he
    · rename_i hforward
      rcases Nat.add_pos_iff_pos_or_pos.1 he with hold | hhanded
      · exact ⟨.inl hold, e, hold, rfl⟩
      · exact ⟨.inr ⟨x, hread, hsource.trans hforward.1.symm, hvalue⟩, _, hhanded, rfl⟩
    · exact ⟨.inl he, e, he, rfl⟩

theorem keeps_run {g : Graph} {r : Change} (hg : g.Consistent) (h : run g = .ok r) : Keeps g r.graph := by
  have hrun : r.graph.Consistent ∧ Keeps g r.graph := by
    refine foldlM_keeps_of_mem (fun r : Change => r.graph.Consistent ∧ Keeps g r.graph) ?_ h ⟨hg, .refl g⟩
    rintro before phi hphi after ⟨hbefore, hkept⟩ hvisit
    have hop : before.graph.op phi ≠ .start := by
      rw [ne_eq, hkept.starts, (mem_find_iff (by decide)).1 hphi]
      decide
    exact ⟨consistent_visit hvisit hbefore, hkept.trans (keeps_visit hbefore hop hvisit)⟩
  exact hrun.2

end NoChoice

/-! ## Lowering -/

namespace Tagging

/-- A node that is spliced onto a value edge hands on what it reads. -/
theorem valued_of_spliced {g g' : Graph} {x : Edge} {mid : NodeId} (h : Spliced g g' x mid) (hg : g.Consistent)
    (hvalue : x.role.isValue = true) (hmid : g'.producesValue mid = true) (hvalued : g.Valued) : g'.Valued := by
  have hold : ∀ {e : Edge}, 0 < g.multiplicity e → e.role.isValue = true → g'.producesValue e.source = true := by
    intro e he hrole
    rw [producesValue, h.op e.source (h.ne_mid (hg.has_of_multiplicity he).1)]
    exact hvalued e he hrole
  have hsource : g'.producesValue x.source = true := hold h.edge hvalue
  intro e he hrole
  rcases h.old e he with rfl | rfl | he
  · exact hsource
  · exact hmid
  · exact hold he hrole

/-- A renamed node has a value if it had one. -/
theorem valued_of_renamed {g g' : Graph} {old new : NodeId} (h : Renamed g g' old new)
    (hnew : g'.producesValue new = true) (hvalued : g.Valued) : g'.Valued := by
  intro e he hrole
  obtain ⟨hsource, -, hback⟩ := (h.edge e).1 he
  by_cases hmoved : e.source = new
  · rw [hmoved]
    exact hnew
  · have hread := hvalued _ hback hrole
    rw [rename, if_neg hmoved] at hread
    rw [producesValue, h.op e.source hsource hmoved]
    exact hread

theorem Step.valued {g g' : Graph} (h : Step g g') (hg : g.Consistent) (hvalued : g.Valued) : g'.Valued := by
  cases h with
  | untag hsplice hvalue _ hop _ => exact valued_of_spliced hsplice hg hvalue (by rw [producesValue, hop]; rfl) hvalued
  | tag hsplice hvalue _ hop _ => exact valued_of_spliced hsplice hg hvalue (by rw [producesValue, hop]; rfl) hvalued
  | sequence hsequence _ _ _ _ _ _ _ =>
      -- Both of the new edges carry control.
      intro e he hrole
      rw [producesValue, hsequence.nodes.op]
      rcases (hsequence.edge e).1 he with he | rfl | rfl
      · exact hvalued e he hrole
      · cases hrole
      · cases hrole
  | test hrename _ hnew _ => exact valued_of_renamed hrename (by rw [producesValue, hnew]; rfl) hvalued
  | add hrename _ hnew _ => exact valued_of_renamed hrename (by rw [producesValue, hnew]; rfl) hvalued

/-- A lowered node keeps its line and nothing else. -/
theorem has_carriedProps {key : String} (hkey : key ≠ Props.line) (g : Graph) (id : NodeId) :
    (carriedProps g id).has key = false := by
  unfold carriedProps
  split
  · rw [Props.has, Props.get?_set_ne hkey]
    rfl
  · rfl

theorem Step.unset {g g' : Graph} (h : Step g g') {key : String} (hkey : key ≠ Props.line)
    (hg : ∀ id, (g.props id).has key = false) : ∀ id, (g'.props id).has key = false := by
  have hspliced : ∀ {x : Edge} {mid : NodeId}, Spliced g g' x mid → g'.props mid = .empty →
      ∀ id, (g'.props id).has key = false := by
    intro x mid hsplice hmid id
    by_cases hid : id = mid
    · rw [hid, hmid]
      rfl
    · rw [hsplice.props id hid]
      exact hg id
  have hrenamed : ∀ {old new : NodeId}, Renamed g g' old new → g'.props new = carriedProps g old →
      ∀ id, (g'.props id).has key = false := by
    intro old new hrename hnew id
    by_cases hidOld : id = old
    · have hgone : g'.has id = false := by
        rw [← Bool.not_eq_true]
        exact fun hid => (hrename.has_back hid).1 hidOld
      rw [props_eq_empty hgone]
      rfl
    · by_cases hidNew : id = new
      · rw [hidNew, hnew]
        exact has_carriedProps hkey g old
      · rw [hrename.props id hidOld hidNew]
        exact hg id
  cases h with
  | untag hsplice _ _ _ hprops => exact hspliced hsplice hprops
  | tag hsplice _ _ _ hprops => exact hspliced hsplice hprops
  | sequence hsequence _ _ _ _ _ _ _ =>
      intro id
      rw [hsequence.nodes.props]
      exact hg id
  | test hrename _ _ hprops => exact hrenamed hrename hprops
  | add hrename _ _ hprops => exact hrenamed hrename hprops

theorem Step.keeps {g g' : Graph} (h : Step g g') (hg : g.Consistent) : Keeps g g' where
  roles := h.unscheduled
  valued := h.valued hg
  starts := h.op_start_iff
  unset hkey := h.unset hkey

theorem keeps_run {g : Graph} {r : Change} (hg : g.Consistent) (h : run g = .ok r) : Keeps g r.graph := by
  obtain ⟨hlowers, -, -⟩ := lowers_run hg h
  exact hlowers.keeps (Keeps g) (fun hs _ hstep hkept => hkept.trans (hstep.keeps hs)) (.refl g)

end Tagging

/-! ## Any pass -/

/-- Every pass keeps it, whatever the pass is. -/
theorem keeps_run {p : Pass} {g : Graph} {r : Change} (hg : g.Consistent) (h : p.run g = .ok r) :
    Keeps g r.graph := by
  cases p with
  | deadCode => exact DeadCode.keeps_sweep hg (mapError_eq_ok.1 h)
  | noChoicePhis => exact NoChoice.keeps_run hg (mapError_eq_ok.1 h)
  | taggingLowering => exact Tagging.keeps_run hg h

theorem keeps_runPasses (c : Compiler) {g : Graph} (hg : g.Consistent) : Keeps g (c.runPasses g).graph := by
  have hstep : ∀ {p : Pass} {s : Graph} {r : Change}, s.Consistent ∧ Keeps g s → p.run s = .ok r →
      r.graph.Consistent ∧ Keeps g r.graph := by
    intro p s r hs hrun
    exact ⟨consistent_run hrun hs.1, hs.2.trans (keeps_run hs.1 hrun)⟩
  exact (runPasses_keeps hstep c ⟨hg, .refl g⟩).1.2

end SeaOfNodes.Pass
