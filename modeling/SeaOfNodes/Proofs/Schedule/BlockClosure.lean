/-
  SeaOfNodes.Proofs.Schedule.BlockClosure

  The members of a block as a least set.  It holds the first node and is closed under what
  the block follows: anchors backwards and control forwards, but nothing from a merge that
  begins another block, no control from a branch, and no control from a start to a finish
  that has other control inputs.  Neither the order of the walk nor that of the stored edges
  has a part in it.
-/
import Mathlib.Data.List.Sort
import Mathlib.Order.Bounds.Basic
import SeaOfNodes.Proofs.Graph.Consistent
import SeaOfNodes.Proofs.Schedule.Walk

namespace SeaOfNodes.Schedule

open Relation

/-- An edge stands for the way from a start to a finish that has other control inputs too. -/
def IsShortcut (g : Graph) (e : Edge) : Prop :=
  g.op e.source = .start ∧ g.op e.target = .finish ∧ 1 < (g.inputsWhere e.target Role.isControl).length

/-- A set of nodes holds the first node of a block, and all that the block follows from its members. -/
structure BlockClosed (g : Graph) (first : NodeId) (members : Set NodeId) : Prop where
  first_mem : first ∈ members
  anchored : ∀ id ∈ members, (g.op id = .merge → id = first) →
    ∀ e ∈ g.inputs id, e.role.name = .globalSchedule → e.source ∈ members
  following : ∀ id ∈ members, (g.op id = .merge → id = first) → g.op id ≠ .branch →
    ∀ e ∈ g.outputs id, e.role.isControl = true → ¬ IsShortcut g e → e.target ∈ members

theorem staysInBlock_iff {g : Graph} {e : Edge} : staysInBlock g e = true ↔ ¬ IsShortcut g e := by
  simp only [staysInBlock, IsShortcut, Graph.controlPredecessors, List.length_map, Bool.not_eq_true', Bool.and_eq_false_iff,
    decide_eq_false_iff_not, not_and_or, or_assoc]

/-- A set is closed exactly if the neighbours of its members are in it. -/
theorem blockClosed_iff {g : Graph} {first : NodeId} {members : Set NodeId} :
    BlockClosed g first members ↔ first ∈ members ∧ ∀ id ∈ members, ∀ next ∈ blockNeighbours g first id, next ∈ members := by
  have hown : ∀ id, isOtherMerge g first id = false ↔ (g.op id = .merge → id = first) := by
    intro id
    simp only [isOtherMerge, Bool.and_eq_false_iff, decide_eq_false_iff_not, not_not]
    tauto
  -- A merge of another block has no neighbours, and a branch only the nodes anchored to it.
  constructor
  · intro h
    refine ⟨h.first_mem, fun id hid next hnext => ?_⟩
    unfold blockNeighbours at hnext
    split at hnext
    · cases hnext
    · rename_i hother
      have hstays := (hown id).1 (by simpa using hother)
      rcases List.mem_append.1 hnext with hnext | hnext
      · obtain ⟨e, he, rfl⟩ := List.mem_map.1 hnext
        obtain ⟨he, hname⟩ := List.mem_filter.1 he
        exact h.anchored id hid hstays e he (of_decide_eq_true hname)
      · split at hnext
        · cases hnext
        · rename_i hbranch
          obtain ⟨e, he, rfl⟩ := List.mem_map.1 hnext
          obtain ⟨he, hkept⟩ := List.mem_filter.1 he
          obtain ⟨he, hcontrol⟩ := List.mem_filter.1 he
          exact h.following id hid hstays hbranch e he hcontrol (staysInBlock_iff.1 hkept)
  · rintro ⟨hfirst, hnext⟩
    refine ⟨hfirst, fun id hid hstays e he hname => hnext id hid _ ?_,
      fun id hid hstays hbranch e he hcontrol hkept => hnext id hid _ ?_⟩
    all_goals rw [blockNeighbours, if_neg (by rw [(hown id).2 hstays]; exact Bool.false_ne_true)]
    · exact List.mem_append_left _ (List.mem_map_of_mem (List.mem_filter.2 ⟨he, decide_eq_true hname⟩))
    · refine List.mem_append_right _ ?_
      rw [if_neg hbranch]
      exact List.mem_map_of_mem (List.mem_filter.2 ⟨List.mem_filter.2 ⟨he, hcontrol⟩, staysInBlock_iff.2 hkept⟩)

/-- The block of a node is the least closed set. -/
theorem isLeast_inBlock (g : Graph) (first : NodeId) :
    IsLeast {members | BlockClosed g first members} {id | InBlock g first id} := by
  refine ⟨blockClosed_iff.2 ⟨.refl, fun id hid next hnext => .tail hid hnext⟩, fun members hmembers id hid => ?_⟩
  obtain ⟨hfirst, hclosed⟩ := blockClosed_iff.1 hmembers
  induction hid with
  | refl => exact hfirst
  | tail _ hstep ih => exact hclosed _ ih _ hstep

/-- In a consistent graph only live nodes belong to the block of a live one. -/
theorem has_of_inBlock {g : Graph} (hg : g.Consistent) {first id : NodeId} (hfirst : g.has first = true)
    (h : InBlock g first id) : g.has id = true := by
  have hlive : BlockClosed g first {id | g.has id = true} :=
    ⟨hfirst, fun _ _ _ _ he _ => hg.has_source he, fun _ _ _ _ _ he _ _ => hg.has_target he⟩
  exact (isLeast_inBlock g first).2 hlive h

theorem mem_blockMembers_iff_inBlock {g : Graph} (hg : g.Consistent) {first id : NodeId} (hfirst : g.has first = true) :
    id ∈ blockMembers g first ↔ InBlock g first id := by
  rw [mem_blockMembers]
  exact ⟨fun h => h.2, fun h => ⟨has_of_inBlock hg hfirst h, h⟩⟩

theorem pairwise_blockMembers (g : Graph) (first : NodeId) : (blockMembers g first).Pairwise (· < ·) :=
  g.pairwise_lt_ids.filter _

/-! ## The walk -/

/-- In whatever order the neighbours of a node are put on the stack, the walk ends, and what it visits is
    in order the members. -/
theorem exists_walks_blockMembers {g : Graph} (hg : g.Consistent) {first : NodeId} (hfirst : g.has first = true)
    {next : NodeId → List NodeId} (hnext : ∀ id, (next id).Perm (blockNeighbours g first id)) :
    ∃ reached, (∀ other, Walks next [first] [] other ↔ other = reached) ∧
      blockMembers g first = reached.mergeSort (· ≤ ·) := by
  have hmembers : ∀ id, next id ≠ [] → id ∈ g.ids := fun id hsome =>
    mem_ids_of_blockNeighbours id fun hnone => hsome (List.perm_nil.1 (hnone ▸ hnext id))
  obtain ⟨reached, hwalks, hnodup, hmem⟩ := exists_walks hmembers first
  refine ⟨reached, fun other => ⟨hwalks.unique, fun h => h ▸ hwalks⟩, (pairwise_blockMembers g first).eq_of_mem_iff ?_ fun id => ?_⟩
  · -- The walk visits no node twice, so in order its nodes ascend strictly.
    have hsorted : (reached.mergeSort (· ≤ ·)).Pairwise (· ≤ ·) := reached.pairwise_mergeSort' (· ≤ ·)
    have hdistinct : (reached.mergeSort (· ≤ ·)).Pairwise (· ≠ ·) := (reached.mergeSort_perm _).nodup_iff.2 hnodup
    exact (hsorted.and hdistinct).imp fun h => lt_of_le_of_ne h.1 h.2
  · rw [List.mem_mergeSort, hmem, steps_eq_of_perm hnext, mem_blockMembers_iff_inBlock hg hfirst]
    rfl

/-! ## The order of edges -/

/-- Two graphs have the same nodes and edges, and store the edges of a node in some order each. -/
structure SameUpToOrder (g g' : Graph) : Prop where
  has : ∀ id, g'.has id = g.has id
  op : ∀ id, g'.op id = g.op id
  inputs : ∀ id, (g'.inputs id).Perm (g.inputs id)
  outputs : ∀ id, (g'.outputs id).Perm (g.outputs id)

theorem SameUpToOrder.blockMembers_eq {g g' : Graph} (h : SameUpToOrder g g') (first : NodeId) :
    blockMembers g' first = blockMembers g first := by
  have hinputs : ∀ id keep, (g'.inputsWhere id keep).Perm (g.inputsWhere id keep) :=
    fun id keep => (h.inputs id).filter _
  have houtputs : ∀ id keep, (g'.outputsWhere id keep).Perm (g.outputsWhere id keep) :=
    fun id keep => (h.outputs id).filter _
  have hown : ∀ id, isOtherMerge g' first id = isOtherMerge g first id := by
    intro id
    rw [isOtherMerge, isOtherMerge, h.op]
  have hstays : staysInBlock g' = staysInBlock g := by
    funext e
    have hpreds : (g'.controlPredecessors e.target).Perm (g.controlPredecessors e.target) := (hinputs _ _).map _
    rw [staysInBlock, staysInBlock, h.op, h.op, hpreds.length_eq]
  have hneighbours : ∀ id, (blockNeighbours g' first id).Perm (blockNeighbours g first id) := by
    intro id
    unfold blockNeighbours
    rw [hown, h.op, hstays]
    split
    · exact .refl _
    · refine ((hinputs id _).map _).append ?_
      split
      · exact .refl _
      · exact ((houtputs id _).filter _).map _
  refine (pairwise_blockMembers g' first).eq_of_mem_iff (pairwise_blockMembers g first) fun id => ?_
  rw [mem_blockMembers, mem_blockMembers, h.has, InBlock, InBlock, steps_eq_of_perm hneighbours]

/-- Graphs linked by the same edges in different orders. -/
theorem sameUpToOrder_assemble {ops : List Op} {edges edges' : List Edge} (h : Graph.Linkable (.ofOps ops) edges)
    (hperm : edges'.Perm edges) : SameUpToOrder (.assemble ops edges) (.assemble ops edges') := by
  have h' : Graph.Linkable (.ofOps ops) edges' := fun e he => h e (hperm.subset he)
  refine ⟨fun id => ?_, fun id => ?_, fun id => ?_, fun id => ?_⟩
  · rw [Graph.assemble, Graph.assemble, Graph.has_linkAll, Graph.has_linkAll]
  · rw [Graph.assemble, Graph.assemble, Graph.op_linkAll, Graph.op_linkAll]
  · rw [Graph.assemble, Graph.assemble, Graph.inputs_linkAll h, Graph.inputs_linkAll h']
    exact (hperm.filter _).append_left _
  · rw [Graph.assemble, Graph.assemble, Graph.outputs_linkAll h, Graph.outputs_linkAll h']
    exact (hperm.filter _).append_left _

/-! ## The result -/

/-- The members of a block ascend strictly and are the least set that is closed under what the block
    follows.  The walk without a bound ends and visits exactly them, in whatever order neighbours are put
    on its stack, and the order in which the edges of nodes are stored changes nothing. -/
theorem blockMembers_isLeast {g : Graph} (hg : g.Consistent) {first : NodeId} (hfirst : g.has first = true) :
    (blockMembers g first).Pairwise (· < ·) ∧
      IsLeast {members | BlockClosed g first members} {id | id ∈ blockMembers g first} ∧
      (∀ next, (∀ id, (next id).Perm (blockNeighbours g first id)) →
        ∃ reached, (∀ other, Walks next [first] [] other ↔ other = reached) ∧
          blockMembers g first = reached.mergeSort (· ≤ ·)) ∧
      ∀ g', SameUpToOrder g g' → blockMembers g' first = blockMembers g first := by
  refine ⟨pairwise_blockMembers g first, ?_, fun next hnext => exists_walks_blockMembers hg hfirst hnext,
    fun g' h => h.blockMembers_eq first⟩
  have hset : {id | id ∈ blockMembers g first} = {id | InBlock g first id} :=
    Set.ext fun id => mem_blockMembers_iff_inBlock hg hfirst
  rw [hset]
  exact isLeast_inBlock g first

/-- The edges of a branch between two ways to a merge, with a condition that is anchored to the branch and
    a way from the start to the finish behind the merge. -/
def shortcutEdges : List Edge :=
  [⟨0, 5, .control⟩, ⟨0, 2, .control⟩, ⟨1, 2, .condition⟩, ⟨1, 2, .globalSchedule⟩, ⟨2, 3, .ifTrue⟩,
    ⟨2, 4, .ifFalse⟩, ⟨3, 4, .controlN 1⟩, ⟨4, 5, .control⟩]

/-- The nodes that belong to `shortcutEdges`. -/
def shortcutOps : List Op := [.start, .arg, .branch, .trace, .merge, .finish]

/-- The block of the start is the start, the branch and the condition, with the edges in either order; the
    finish belongs to the block of the merge only. -/
theorem blockMembers_shortcut :
    Graph.Linkable (.ofOps shortcutOps) shortcutEdges ∧ (Graph.assemble shortcutOps shortcutEdges).Consistent ∧
      blockMembers (.assemble shortcutOps shortcutEdges) 0 = [0, 1, 2] ∧
      blockMembers (.assemble shortcutOps shortcutEdges.reverse) 0 = [0, 1, 2] ∧
      blockMembers (.assemble shortcutOps shortcutEdges) 4 = [4, 5] ∧
      ∀ members, BlockClosed (.assemble shortcutOps shortcutEdges) 0 members → {0, 1, 2} ⊆ members := by
  have hlinkable : Graph.Linkable (.ofOps shortcutOps) shortcutEdges := by decide
  have hconsistent := Graph.consistent_assemble hlinkable
  have hfirst : (Graph.assemble shortcutOps shortcutEdges).has 0 = true := by decide
  obtain ⟨-, hleast, -, horder⟩ := blockMembers_isLeast hconsistent hfirst
  have hmembers : blockMembers (.assemble shortcutOps shortcutEdges) 0 = [0, 1, 2] := by decide
  refine ⟨hlinkable, hconsistent, hmembers, ?_, by decide, fun members hclosed id hid => hleast.2 hclosed ?_⟩
  · rw [horder _ (sameUpToOrder_assemble hlinkable (List.reverse_perm _)), hmembers]
  · change id ∈ blockMembers _ 0
    rw [hmembers]
    simpa using hid

end SeaOfNodes.Schedule
