/-
  SeaOfNodes.Proofs.Schedule.Scheduled

  What a successful run leaves behind, said about the scheduled graph alone: every
  block has its order, the chain edges are exactly those of the orders, no two
  blocks own a node together, and every floating node is settled.
-/
import SeaOfNodes.Proofs.Schedule.Chaining
import Mathlib

namespace SeaOfNodes.Schedule

open Relation

/-! ## The phases of a run -/

/-- How a run ends: the phase in which it fails, if it does, with the graph that this phase
    leaves.  Each phase begins with what the one before has done. -/
inductive RunEnds (g : Graph) : (left : Graph) → (failure? : Option Failure) → Prop
  | refused {cause : Error} (hcheck : checkSchedulable g = .error cause) : RunEnds g g (some ⟨none, cause⟩)
  | order {s : Graph} {cause : Error} (hcheck : checkSchedulable g = .ok ())
      (horder : orderFixed g = ⟨s, .error cause⟩) : RunEnds g s (some ⟨some .order, cause⟩)
  | anchors {ordered : Graph} {a : Anchoring} {cause : Error} (hcheck : checkSchedulable g = .ok ())
      (horder : orderFixed g = .done ordered ()) (hanchor : anchorFloating ordered = ⟨a, .error cause⟩) :
      RunEnds g a.graph (some ⟨some .anchors, cause⟩)
  | chains {ordered : Graph} {a : Anchoring} {c : Chaining} {cause : Error} (hcheck : checkSchedulable g = .ok ())
      (horder : orderFixed g = .done ordered ()) (hanchor : anchorFloating ordered = .done a ())
      (hchain : chainAll a.graph = ⟨c, .error cause⟩) : RunEnds g c.graph (some ⟨some .chains, cause⟩)
  | done {ordered : Graph} {a : Anchoring} {c : Chaining} (hcheck : checkSchedulable g = .ok ())
      (horder : orderFixed g = .done ordered ()) (hanchor : anchorFloating ordered = .done a ())
      (hchain : chainAll a.graph = .done c ()) : RunEnds g c.graph none

theorem run_ends (g : Graph) : RunEnds g (run g).graph (run g).failure? := by
  rw [run]
  split
  · exact .refused (by assumption)
  · split
    · exact .order (by assumption) (by assumption)
    · split
      · exact .anchors (by assumption) (by assumption) (by assumption)
      · split
        · exact .chains (by assumption) (by assumption) (by assumption) (by assumption)
        · exact .done (by assumption) (by assumption) (by assumption) (by assumption)

/-- A run without a failure went through all phases. -/
theorem run_phases {g : Graph} (h : (run g).failure? = none) :
    ∃ ordered a c, checkSchedulable g = .ok () ∧ orderFixed g = .done ordered () ∧
      anchorFloating ordered = .done a () ∧ chainAll a.graph = .done c () ∧ (run g).graph = c.graph := by
  have hends := run_ends g
  rw [h] at hends
  generalize (run g).graph = left at hends ⊢
  cases hends with
  | done hcheck horder hanchor hchain => exact ⟨_, _, _, hcheck, horder, hanchor, hchain, rfl⟩

/-- The nodes that begin a block. -/
def blockFirsts (g : Graph) : List NodeId := g.ids.filter g.beginsBlock

theorem nodup_blockFirsts (g : Graph) : (blockFirsts g).Nodup := g.nodup_ids.filter _

theorem mem_blockFirsts {g : Graph} {id : NodeId} :
    id ∈ blockFirsts g ↔ g.has id = true ∧ g.beginsBlock id = true := by
  rw [blockFirsts, List.mem_filter, Graph.mem_ids]

/-- The edges of all chains. -/
def allChainEdges (g : Graph) (order : NodeId → List NodeId) : List Edge :=
  (blockFirsts g).flatMap fun first => chainEdges first (order first)

/-- A scheduled graph, with the order of each block. -/
structure Scheduled (s : Graph) (order : NodeId → List NodeId) : Prop where
  consistent : s.Consistent
  oneStart : (s.find .start).length = 1
  block : ∀ first ∈ blockFirsts s, ChainedBlock s first (order first)
  disjoint : ∀ first ∈ blockFirsts s, ∀ second ∈ blockFirsts s, first ≠ second →
    Disjoint s first second
  chainOut : ∀ id, s.outputsNamed id .localSchedule = (allChainEdges s order).filter (·.source = id)
  chainIn : ∀ id, s.inputsNamed id .localSchedule = (allChainEdges s order).filter (·.target = id)
  settled : ∀ id, s.has id = true → s.isFixed id = false → Settled s id
  unanchored : ∀ id, s.isFixed id = true → s.outputsNamed id .globalSchedule = []

/-! ## Blocks of the graph before and after chaining -/

theorem ChainedBlock.agree {g s : Graph} (h : Graph.Agree Graph.unchained g s) {first : NodeId}
    {order : List NodeId} (hblock : ChainedBlock g first order) : ChainedBlock s first order where
  perm := by rw [blockMembers_agree h]; exact hblock.perm
  firstReady := by rw [isChainable_agree h, blockMembers_agree h]; exact hblock.firstReady
  ready before id after hsplit := by
    rw [isChainable_agree h, blockMembers_agree h]
    exact hblock.ready before id after hsplit
  endsLast before id after hsplit hends := by
    rw [endsBlock_agree h] at hends
    exact hblock.endsLast before id after hsplit hends

theorem Disjoint.agree {g s : Graph} (h : Graph.Agree Graph.unchained g s) {first second : NodeId}
    (hdisjoint : Disjoint g first second) : Disjoint s first second := by
  unfold Disjoint
  simp only [blockMembers_agree h, isOtherMerge_agree h]
  exact hdisjoint

theorem Disjoint.symm {g : Graph} {first second : NodeId} (h : Disjoint g first second) :
    Disjoint g second first :=
  fun id hid hid' => (h id hid' hid).symm

theorem PlacedAt.agree {g s : Graph} (h : Graph.Agree Graph.unchained g s) {id last : NodeId}
    (hplaced : PlacedAt g id last) : PlacedAt s id last := by
  obtain ⟨passed, hchain⟩ := hplaced
  exact ⟨passed, hchain.transfer (sameProgram_of_agree_unchained h).isFixed fun x _ =>
    outputsNamed_globalSchedule_agree h x⟩

theorem Settled.agree {g s : Graph} (h : Graph.Agree Graph.unchained g s) {id : NodeId}
    (hsettled : Settled g id) : Settled s id := by
  have hprogram := sameProgram_of_agree_unchained h
  obtain ⟨hused, last, hlast, hsites⟩ := hsettled
  rw [Settled, hprogram.useSites]
  refine ⟨hused, last, hlast.agree h, fun site hsite => ?_⟩
  obtain ⟨lastSite, hlastSite, hpath⟩ := hsites site hsite
  rw [ControlPath.agree hprogram]
  exact ⟨lastSite, hlastSite.agree h, hpath⟩

/-! ## The result of a run -/

theorem role_of_mem_allChainEdges {g : Graph} {order : NodeId → List NodeId} {e : Edge}
    (he : e ∈ allChainEdges g order) : e.role = .localSchedule := by
  obtain ⟨first, -, he⟩ := List.mem_flatMap.1 he
  exact role_of_mem_chainEdges he

/-- Linking chain edges to a graph without them leaves exactly these. -/
theorem outputsNamed_linkAll_chain {g : Graph} {edges : List Edge} {id : NodeId}
    (hlink : g.Linkable edges) (hnone : g.outputsNamed id .localSchedule = [])
    (hroles : ∀ e ∈ edges, e.role = .localSchedule) :
    (g.linkAll edges).outputsNamed id .localSchedule = edges.filter (·.source = id) := by
  unfold Graph.outputsNamed Graph.outputsWhere at hnone ⊢
  rw [Graph.outputs_linkAll hlink, List.filter_append, hnone, List.nil_append, List.filter_eq_self]
  intro e he
  rw [hroles e (List.mem_of_mem_filter he)]
  rfl

theorem inputsNamed_linkAll_chain {g : Graph} {edges : List Edge} {id : NodeId}
    (hlink : g.Linkable edges) (hnone : g.inputsNamed id .localSchedule = [])
    (hroles : ∀ e ∈ edges, e.role = .localSchedule) :
    (g.linkAll edges).inputsNamed id .localSchedule = edges.filter (·.target = id) := by
  unfold Graph.inputsNamed Graph.inputsWhere at hnone ⊢
  rw [Graph.inputs_linkAll hlink, List.filter_append, hnone, List.nil_append, List.filter_eq_self]
  intro e he
  rw [hroles e (List.mem_of_mem_filter he)]
  rfl

theorem chainAll_done {g : Graph} {c : Chaining} (h : chainAll g = .done c ()) :
    ∃ order, ChainedBlocks g g c.graph (blockFirsts g) order :=
  (chainBlocks_done (.refl _ g) (nodup_blockFirsts g) h).1

theorem agree_chainAll {g : Graph} {c : Chaining} (h : chainAll g = .done c ()) :
    Graph.Agree Graph.unchained g c.graph := by
  obtain ⟨order, hblocks⟩ := chainAll_done h
  rw [hblocks.graph]
  exact agree_link_chain hblocks.linkable fun e he => role_of_mem_allChainEdges (g := g) he

/-- A graph whose floating nodes are all settled and whose blocks are still unchained. -/
structure Placed (s : Graph) : Prop where
  consistent : s.Consistent
  oneStart : (s.find .start).length = 1
  unlinked : ∀ id, s.outputsNamed id .localSchedule = []
  settled : ∀ id, s.has id = true → s.isFixed id = false → Settled s id
  unanchored : ∀ id, s.isFixed id = true → s.outputsNamed id .globalSchedule = []

theorem Placed.unlinked_inputs {s : Graph} (h : Placed s) (id : NodeId) : s.inputsNamed id .localSchedule = [] := by
  rw [List.eq_nil_iff_forall_not_mem]
  intro e he
  obtain ⟨he, hrole⟩ := List.mem_filter.1 he
  have hout : e ∈ s.outputsNamed e.source .localSchedule :=
    List.mem_filter.2 ⟨h.consistent.mem_outputs he, hrole⟩
  rw [h.unlinked] at hout
  cases hout

/-- Ordering the fixed nodes and anchoring the others settles every floating node. -/
theorem placed_of_anchorFloating {g ordered : Graph} {a : Anchoring} (hg : g.Consistent)
    (hcheck : checkSchedulable g = .ok ()) (horder : orderFixed g = .done ordered ())
    (hanchor : anchorFloating ordered = .done a ()) : Graph.SameProgram g a.graph ∧ Placed a.graph := by
  have hordered := agree_orderFixed (fun _ => true) horder
  have hunscheduled := outputsNamed_eq_nil_of_orderFixed hcheck horder
  have hinv := anchored_of_anchorFloating (fun id => hunscheduled id .globalSchedule rfl) hanchor
  have hprogram : Graph.SameProgram g a.graph := hordered.sameProgram.trans hinv.sameProgram
  refine ⟨hprogram, hinv.consistent (hg.congr hordered.inputs_eq hordered.outputs_eq), ?_, fun id => ?_,
    fun id hid hfloating => hinv.settled_of_has hid hfloating (by simp), fun id => hinv.unanchored⟩
  · rw [hprogram.find]
    exact oneStart_of_checkSchedulable hcheck
  · -- Anchoring adds no chain edges, and the checked graph has none.
    rw [Graph.outputsNamed, hinv.agree.outputsWhere_of_le]
    · exact hunscheduled id .localSchedule rfl
    · intro role hrole
      simp [unanchored, of_decide_eq_true hrole]

/-- Chaining the blocks of such a graph schedules it. -/
theorem scheduled_of_chainAll {g : Graph} {c : Chaining} (h : Placed g) (hchain : chainAll g = .done c ()) :
    Graph.SameProgram g c.graph ∧ ∃ order, Scheduled c.graph order := by
  obtain ⟨order, hblocks⟩ := chainAll_done hchain
  have hagree := agree_chainAll hchain
  have hprogram := sameProgram_of_agree_unchained hagree
  have hfirsts : blockFirsts c.graph = blockFirsts g := hprogram.filter_beginsBlock
  have hedges : allChainEdges c.graph order = allChainEdges g order := by
    unfold allChainEdges
    rw [hfirsts]
  have hroles : ∀ e ∈ allChainEdges g order, e.role = .localSchedule := fun e he => role_of_mem_allChainEdges he
  refine ⟨hprogram, order, ?_, ?_, ?_, ?_, fun id => ?_, fun id => ?_, fun id hhas hfloating => ?_, fun id hfixed => ?_⟩
  · rw [hblocks.graph]
    exact h.consistent.linkAll hblocks.linkable
  · rw [hprogram.find]
    exact h.oneStart
  · rw [hfirsts]
    exact fun first hfirst => (hblocks.block first hfirst).agree hagree
  · rw [hfirsts]
    intro first hfirst second hsecond hne
    have hsymm : Std.Symm (Disjoint g) := ⟨fun _ _ => Disjoint.symm⟩
    exact (hblocks.disjoint.forall hfirst hsecond hne).agree hagree
  · rw [hedges, hblocks.graph]
    exact outputsNamed_linkAll_chain hblocks.linkable (h.unlinked id) hroles
  · rw [hedges, hblocks.graph]
    exact inputsNamed_linkAll_chain hblocks.linkable (h.unlinked_inputs id) hroles
  · rw [hagree.has] at hhas
    rw [hprogram.isFixed] at hfloating
    exact (h.settled id hhas hfloating).agree hagree
  · rw [outputsNamed_globalSchedule_agree hagree]
    rw [hprogram.isFixed] at hfixed
    exact h.unanchored id hfixed

/-- A successful run schedules a consistent graph and keeps its program. -/
theorem scheduled_of_run {g : Graph} (hg : g.Consistent) (h : (run g).failure? = none) :
    Graph.SameProgram g (run g).graph ∧ ∃ order, Scheduled (run g).graph order := by
  obtain ⟨ordered, a, c, hcheck, horder, hanchor, hchain, hgraph⟩ := run_phases h
  obtain ⟨hplacing, hplaced⟩ := placed_of_anchorFloating hg hcheck horder hanchor
  obtain ⟨hchaining, horders⟩ := scheduled_of_chainAll hplaced hchain
  rw [hgraph]
  exact ⟨hplacing.trans hchaining, horders⟩

/-- The schedule of the diamond succeeds. -/
theorem run_diamond : (run .diamond).failure? = none := by cbv

/-- A successful run changes no property but the sequence. -/
theorem get?_props_run {g : Graph} (h : (run g).failure? = none) {key : String} (hkey : key ≠ Props.sequence)
    (id : NodeId) : ((run g).graph.props id).get? key = (g.props id).get? key := by
  obtain ⟨ordered, a, c, hcheck, horder, hanchor, hchain, hgraph⟩ := run_phases h
  have hinv := anchored_of_anchorFloating
    (fun id => outputsNamed_eq_nil_of_orderFixed hcheck horder id .globalSchedule rfl) hanchor
  obtain ⟨order, hblocks⟩ := chainAll_done hchain
  rw [hgraph, hblocks.graph, Graph.props_linkAll, hinv.props]
  exact get?_props_orderFixed hkey horder id

end SeaOfNodes.Schedule
