/-
  SeaOfNodes.Proofs.Schedule.Uses

  What scheduling asks of the uses of floating nodes.  Where every floating node is
  read, anchoring may fail for other reasons, but never because a node has no
  consumers; where one is not, no run succeeds.  Nor does one where the first node of a
  block reads a floating node that nothing else uses: that would be anchored there.
-/
import SeaOfNodes.Proofs.Graph.Readers
import SeaOfNodes.Proofs.Schedule.AnchorTotality
import SeaOfNodes.Proofs.Schedule.BlockOrder

namespace SeaOfNodes.Schedule

/-! ## Errors of anchoring -/

/-- The cause is that nobody needs a node's value. -/
def Error.isUnused : Error → Bool
  | .stuck (.noConsumers _) => true
  | _ => false

/-- A computation does not fail for want of a use. -/
def NeverUnused {α : Type} (x : Except Error α) : Prop := ∀ cause, x = .error cause → cause.isUnused = false

theorem NeverUnused.ok {α : Type} (a : α) : NeverUnused (.ok a : Except Error α) := by
  intro cause h
  cases h

theorem NeverUnused.bind {α β : Type} {x : Except Error α} {f : α → Except Error β} (hx : NeverUnused x)
    (hf : ∀ a, NeverUnused (f a)) : NeverUnused (x >>= f) := by
  cases x with
  | error cause =>
      intro cause' h
      cases h
      exact hx cause rfl
  | ok a => exact hf a

theorem neverUnused_followAnchors (g : Graph) (origin : NodeId) (steps : Nat) (id : NodeId) :
    NeverUnused (followAnchors g origin steps id) := by
  induction steps generalizing id with
  | zero =>
      intro cause h
      cases h
      rfl
  | succ steps ih =>
      rw [followAnchors]
      split
      · exact .ok id
      · split
        · intro cause h
          cases h
          rfl
        · exact ih _
        · intro cause h
          cases h
          rfl

theorem neverUnused_anchorReaches (g : Graph) (a b : NodeId) : NeverUnused (anchorReaches g a b) :=
  (neverUnused_followAnchors g a _ a).bind fun _ => (neverUnused_followAnchors g b _ b).bind fun _ => .ok _

theorem neverUnused_allHold {test : NodeId → Except Error Bool} (htest : ∀ id, NeverUnused (test id))
    (ids : List NodeId) : NeverUnused (allHold test ids) := by
  induction ids with
  | nil => exact .ok true
  | cons id rest ih =>
      rw [allHold]
      refine (htest id).bind fun holds => ?_
      split
      · exact ih
      · exact .ok false

theorem neverUnused_filterHold {test : NodeId → Except Error Bool} (htest : ∀ id, NeverUnused (test id))
    (ids : List NodeId) : NeverUnused (filterHold test ids) := by
  induction ids with
  | nil => exact .ok []
  | cons id rest ih => exact (htest id).bind fun _ => ih.bind fun _ => .ok _

theorem neverUnused_latest (g : Graph) (best : NodeId) (bound : Int64) (ids : List NodeId) :
    NeverUnused (latest g best bound ids) := by
  induction ids generalizing best bound with
  | nil => exact .ok best
  | cons c rest ih =>
      rw [latest]
      refine (neverUnused_followAnchors g c _ c).bind fun anchor => NeverUnused.bind ?_ fun n => ?_
      · unfold sequence
        split
        · exact .ok _
        · intro cause h
          cases h
          rfl
      · split
        · exact ih c n
        · exact ih best bound

/-- Whatever else is wrong, a node with a use is not refused for want of one. -/
theorem neverUnused_anchorFor {g : Graph} {id : NodeId} (hused : g.useSites id ≠ []) :
    NeverUnused (anchorFor g id) := by
  unfold anchorFor
  split
  · exact .ok none
  · refine NeverUnused.bind ?_ fun found => ?_
    · unfold candidates
      split
      · rename_i hnone
        -- The one refusal for want of a use: but there is one.
        obtain ⟨site, hsite⟩ := List.exists_mem_of_ne_nil _ hused
        have hmem := mem_distinct.2 hsite
        rw [hnone] at hmem
        cases hmem
      · exact .ok _
      · refine neverUnused_filterHold (fun c => ?_) _
        unfold isCandidate
        refine (neverUnused_allHold (fun input => neverUnused_anchorReaches g input c) _).bind fun reached => ?_
        split
        · exact neverUnused_allHold (fun consumer => neverUnused_anchorReaches g c consumer) _
        · exact .ok false
    · split
      · intro cause h
        cases h
        rfl
      · exact (neverUnused_latest g _ _ _).bind fun _ => .ok _

/-- Anchors are no uses, so the nodes that wait keep theirs. -/
theorem neverUnused_anchorFloating {g : Graph} (hused : ∀ id ∈ g.ids.filter g.isFloating, g.useSites id ≠ []) :
    NeverUnused (anchorFloating g).result := by
  have hends := anchorFloating_ends (P := fun s waiting => ∀ id ∈ waiting, s.useSites id ≠ []) ?_ hused
  · intro cause h
    have hfailed : anchorFloating g = ⟨(anchorFloating g).state, .error cause⟩ := congrArg (Outcome.mk _) h
    obtain ⟨waiting, hwaiting, ⟨id, hid, hfor | ⟨anchor, -, hplace⟩⟩ | ⟨-, n, label, rfl⟩⟩ := hends.of_eq_error hfailed
    · exact neverUnused_anchorFor (hwaiting id hid) cause hfor
    · unfold Anchoring.place at hplace
      split at hplace
      · cases hplace
      · cases hplace
        rfl
    · rfl
  · intro s front back id anchor hs _ hid hanchor x hx
    rw [(sameProgram_link_anchor hid hanchor).useSites]
    exact hs x (mem_of_mem_without hx)

/-! ## Runs -/

/-- Where every floating node is read no run fails for want of a use. -/
theorem isUnused_of_run {g : Graph} (hread : g.NoneDangles) {f : Failure} (h : (run g).failure? = some f)
    (hphase : f.phase? = some .anchors) : f.cause.isUnused = false := by
  have hends := run_ends g
  rw [h] at hends
  generalize (run g).graph = left at hends
  cases hends with
  | refused _ => cases hphase
  | order _ _ => cases hphase
  | chains _ _ _ _ => cases hphase
  | anchors _ horder hanchor =>
      -- Only anchoring fails in this phase, and numbering has left the uses alone.
      have hsame : Graph.SameProgram g _ := (agree_orderFixed (fun _ => true) horder).sameProgram
      refine neverUnused_anchorFloating (fun id hid => ?_) _ (congrArg Outcome.result hanchor)
      obtain ⟨hid, hfloating⟩ := List.mem_filter.1 hid
      rw [hsame.ids, Graph.mem_ids] at hid
      rw [hsame.isFloating] at hfloating
      rw [hsame.useSites]
      exact fun hnone => hread id hid hfloating (useSites_eq_nil_iff.1 hnone)

theorem run_ne_noConsumers {g : Graph} (hread : g.NoneDangles) (label : Label) :
    (run g).failure? ≠ some ⟨some .anchors, .stuck (.noConsumers label)⟩ := by
  intro h
  cases isUnused_of_run hread h rfl

/-- A run over a graph that is not refused and can be numbered fails late if it fails. -/
theorem phase_of_run {g ordered : Graph} (hcheck : checkSchedulable g = .ok ())
    (horder : orderFixed g = .done ordered ()) {f : Failure} (h : (run g).failure? = some f) :
    f.phase? = some .anchors ∨ f.phase? = some .chains := by
  have hends := run_ends g
  rw [h] at hends
  generalize (run g).graph = left at hends
  cases hends with
  | refused hrefused =>
      rw [hcheck] at hrefused
      cases hrefused
  | order _ hfailed =>
      rw [horder] at hfailed
      cases hfailed
  | anchors _ _ _ => exact .inl rfl
  | chains _ _ _ _ => exact .inr rfl

/-- Where one is not no run succeeds. -/
theorem noneDangles_of_run {g : Graph} (h : (run g).failure? = none) : g.NoneDangles := by
  obtain ⟨ordered, a, c, -, horder, hanchor, -, -⟩ := run_phases h
  have hsame := agree_orderFixed (fun _ => true) horder
  have hprogram : Graph.SameProgram g ordered := hsame.sameProgram
  intro id hid hfloating hunused
  have hwaits : id ∈ ordered.ids := by
    rw [hprogram.ids, Graph.mem_ids]
    exact hid
  refine anchorFloating_ne_done_of_unused hwaits ?_ ?_ a hanchor
  · rw [hprogram.isFloating]
    exact hfloating
  · rw [Graph.consumers, hsame.outputsWhere_of_le fun _ _ => rfl]
    exact hunused

/-! ## Values that one place needs -/

/-- In a graph that is scheduled, the first node of a block reads no floating node that
    it alone uses. -/
theorem exists_other_use_of_run {g : Graph} (hg : g.Consistent) (h : (run g).failure? = none) {e : Edge}
    (he : e ∈ g.inputs e.target) (hvalue : e.role.isValue = true) (hbegins : g.beginsBlock e.target = true)
    (hfloating : g.isFixed e.source = false) : ∃ site ∈ g.useSites e.source, site ≠ e.target := by
  by_contra hnone
  have hsole : ∀ x ∈ g.useSites e.source, x = e.target := by
    intro x hx
    by_contra hne
    exact hnone ⟨x, hx, hne⟩
  obtain ⟨hprogram, order, hs⟩ := scheduled_of_run hg h
  obtain ⟨ordered, a, c, hcheck, horder, hanchor, hchain, hgraph⟩ := run_phases h
  have hordered : Graph.SameProgram g ordered := (agree_orderFixed (fun _ => true) horder).sameProgram
  -- The node would be anchored to the only place that uses it, and the anchor outlasts the chains.
  have hedge : anchorEdge e.source e.target ∈ a.graph.outputs e.source := by
    refine anchorEdge_of_sole_use
      (fun id _ => outputsNamed_eq_nil_of_orderFixed hcheck horder id .globalSchedule rfl) hanchor ?_ ?_ ?_
    · rw [hordered.has]
      exact hg.has_source he
    · rw [hordered.isFixed]
      exact hfloating
    · rw [hordered.useSites]
      exact hsole
  have hmem : anchorEdge e.source e.target ∈ (run g).graph.inputs e.target := by
    have houtput : anchorEdge e.source e.target ∈ (run g).graph.outputs e.source := by
      rw [hgraph, (agree_chainAll hchain).mem_outputs_iff (by rfl)]
      exact hedge
    exact hs.consistent.mem_inputs houtput
  -- So the node is a member of the block, which its first node may not depend on.
  have hfirst : e.target ∈ blockFirsts (run g).graph := by
    rw [mem_blockFirsts, hprogram.has, hprogram.beginsBlock]
    exact ⟨Graph.has_of_mem_inputs he, hbegins⟩
  have hmember : e.source ∈ blockMembers (run g).graph e.target := by
    have hlive : (run g).graph.has e.source = true := by
      rw [hprogram.has]
      exact hg.has_source he
    refine mem_blockMembers.2 ⟨hlive, Relation.ReflTransGen.single ?_⟩
    unfold blockNeighbours
    rw [isOtherMerge_self, if_neg Bool.false_ne_true]
    exact List.mem_append_left _ (List.mem_map.2 ⟨_, List.mem_filter.2 ⟨hmem, rfl⟩, rfl⟩)
  have hsame := (hs.block e.target hfirst).source_eq_first (e := e)
    ((hprogram.mem_inputs_iff (Graph.unscheduled_of_isValue hvalue)).2 he)
    (by simpa [Graph.unscheduled] using Graph.unscheduled_of_isValue hvalue) hmember
  rw [hsame, isFixed_of_beginsBlock hbegins] at hfloating
  cases hfloating

end SeaOfNodes.Schedule
