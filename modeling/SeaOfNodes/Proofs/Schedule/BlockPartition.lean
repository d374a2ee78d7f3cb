/-
  SeaOfNodes.Proofs.Schedule.BlockPartition

  The local schedule of a graph is a partition into chains, one for each block, and
  every chain respects the dependencies inside its block.
-/
import SeaOfNodes.Proofs.Schedule.BlockOrder

namespace SeaOfNodes.Schedule

/-- The members of a block without the merge of another one. -/
def ownMembers (g : Graph) (first : NodeId) : List NodeId :=
  (blockMembers g first).filter fun id => !isOtherMerge g first id

/-- A chain of a block: the members in an order that respects their
    dependencies. -/
structure BlockChain (s : Graph) (first : NodeId) (chain : List NodeId) : Prop where
  /-- Following the schedule from the first node gives the chain. -/
  walk : ChainWalk s first first chain
  /-- It has every member once. -/
  members : chain.Nodup ∧ ∀ id, id ∈ chain ↔ id ∈ blockMembers s first
  head : chain.head? = some first
  /-- What ends the block is last. -/
  last : ∀ id ∈ chain, id ≠ first → endsBlock s first id = true → chain.getLast? = some id
  /-- A member comes after its inputs from the block. -/
  inputs : ∀ id ∈ chain, id ≠ first → ∀ e ∈ s.inputs id,
    (e.role.isValue || e.role.isControl || e.role.name = .globalSchedule) = true →
    e.source ∈ chain → Precedes chain e.source id
  /-- A floating member has its fixed anchor in the block and comes before it. -/
  anchors : ∀ id ∈ chain, s.isFloating id = true → ∃ anchor, fixedAnchor s id = .ok anchor ∧
    anchor ∈ chain ∧ (anchor ≠ first → Precedes chain id anchor)

theorem Scheduled.blockChain {s : Graph} {order : NodeId → List NodeId} (h : Scheduled s order)
    {first : NodeId} (hfirst : first ∈ blockFirsts s) : BlockChain s first (first :: order first) where
  walk := h.chainWalk hfirst [] (order first) rfl
  members := ⟨(h.block first hfirst).nodup hfirst, fun id => (h.mem_blockMembers_iff hfirst).symm⟩
  head := rfl
  last id hid hne hends := by
    obtain ⟨before, after, hsplit⟩ := List.append_of_mem hid
    obtain rfl := (h.block first hfirst).eq_nil_of_endsBlock hsplit hne hends
    rw [hsplit, List.getLast?_append_cons, List.getLast?_singleton]
  inputs id hid hne e he hrole hsource := by
    rw [← h.mem_blockMembers_iff hfirst] at hid hsource
    refine h.precedes_of_input hfirst hid hne he (fun hlocal => ?_) hsource
    simp [hlocal, Role.isValue, Role.isControl, Role.Name.isValue, Role.Name.isControl] at hrole
  anchors id hid hfloating := by
    rw [← h.mem_blockMembers_iff hfirst] at hid
    obtain ⟨anchor, hplaced, ⟨hmember, -⟩, hbefore⟩ := h.placedAt_of_inBlock hfirst (mem_blockMembers.1 hid).2
      (by simpa [Graph.isFloating] using hfloating)
    exact ⟨anchor, fixedAnchor_eq_ok.2 hplaced, (h.mem_blockMembers_iff hfirst).1 hmember, hbefore⟩

/-- The local schedule of a graph is a partition into chains that respect the
    dependencies: blocks share no member but merges that begin another one, every
    block has its chain, at most one chain edge leaves a node, and several reach
    only merges. -/
theorem run_chains_partition (g : Graph) (hg : g.Consistent) (h : (run g).failure? = none) :
    (∀ first ∈ blockFirsts (run g).graph, ∀ second ∈ blockFirsts (run g).graph, first ≠ second →
      List.Disjoint (ownMembers (run g).graph first) (ownMembers (run g).graph second)) ∧
    (∀ first ∈ blockFirsts (run g).graph, ∃ chain, BlockChain (run g).graph first chain) ∧
    ∀ id, ((run g).graph.outputsNamed id .localSchedule).length ≤ 1 ∧
      ((run g).graph.op id ≠ .merge → ((run g).graph.inputsNamed id .localSchedule).length ≤ 1) := by
  obtain ⟨-, order, hs⟩ := scheduled_of_run hg h
  refine ⟨fun first hfirst second hsecond hne id hid hid' => ?_, fun first hfirst => ?_, fun id => ?_⟩
  · obtain ⟨hmem, hown⟩ := List.mem_filter.1 hid
    obtain ⟨hmem', hown'⟩ := List.mem_filter.1 hid'
    exact hne (hs.eq_of_mem_blockMembers hfirst hsecond hmem hmem' (by simpa using hown)
      (by simpa using hown'))
  · exact ⟨first :: order first, hs.blockChain hfirst⟩
  · exact ⟨hs.length_outputsNamed_le_one id, hs.length_inputsNamed_le_one⟩

/-- The diamond has a chain for each of its four blocks. -/
theorem run_diamond_chains :
    (run .diamond).failure? = none ∧ blockFirsts (run .diamond).graph = [0, 3, 4, 5] ∧
      ∀ first ∈ blockFirsts (run .diamond).graph, ∃ chain, BlockChain (run .diamond).graph first chain := by
  have hprogram := (scheduled_of_run Graph.consistent_diamond run_diamond).1
  refine ⟨run_diamond, ?_, (run_chains_partition .diamond Graph.consistent_diamond run_diamond).2.1⟩
  rw [blockFirsts, hprogram.filter_beginsBlock]
  decide +kernel

end SeaOfNodes.Schedule
