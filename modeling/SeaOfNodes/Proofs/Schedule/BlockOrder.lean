/-
  SeaOfNodes.Proofs.Schedule.BlockOrder

  The chains of a scheduled graph.  Following the schedule from the first node of
  a block visits the members of the block once each, in an order that respects
  their dependencies; blocks share no nodes but merges at their ends; and a
  floating node runs before its anchor, in the same block.
-/
import SeaOfNodes.Proofs.Schedule.ControlWalk
import SeaOfNodes.Proofs.Schedule.Scheduled

namespace SeaOfNodes.Schedule

open Relation

/-! ## Edges along a chain -/

theorem mem_chainEdges_iff {tail : NodeId} {order : List NodeId} {e : Edge} :
    e ∈ chainEdges tail order ↔ ∃ before id next after, tail :: order = before ++ id :: next :: after ∧
      e = chainEdge id next := by
  induction order generalizing tail with
  | nil =>
      simp only [chainEdges, List.not_mem_nil, false_iff, not_exists]
      rintro before id next after ⟨hsplit, -⟩
      have := congrArg List.length hsplit
      simp only [List.length_cons, List.length_append, List.length_nil] at this
      omega
  | cons x rest ih =>
      rw [chainEdges, List.mem_cons, ih]
      constructor
      · rintro (rfl | ⟨before, id, next, after, hsplit, rfl⟩)
        · exact ⟨[], tail, x, rest, rfl, rfl⟩
        · exact ⟨tail :: before, id, next, after, by rw [hsplit]; rfl, rfl⟩
      · rintro ⟨before, id, next, after, hsplit, rfl⟩
        rcases List.cons_eq_append_iff.1 hsplit with ⟨rfl, hfront⟩ | ⟨before, rfl, htail⟩
        · simp only [List.cons.injEq] at hfront
          obtain ⟨rfl, rfl, rfl⟩ := hfront
          exact .inl rfl
        · exact .inr ⟨before, id, next, after, htail, rfl⟩

/-- A chain without repetitions has one edge from each node but its last. -/
theorem nodup_map_source_chainEdges {tail : NodeId} {order : List NodeId} (h : (tail :: order).Nodup) :
    ((chainEdges tail order).map Edge.source).Nodup := by
  induction order generalizing tail with
  | nil => simp [chainEdges]
  | cons x rest ih =>
      obtain ⟨htail, hrest⟩ := List.nodup_cons.1 h
      refine List.nodup_cons.2 ⟨fun hmem => htail ?_, ih hrest⟩
      obtain ⟨e, he, hsource⟩ := List.mem_map.1 hmem
      obtain ⟨before, id, next, after, hsplit, rfl⟩ := mem_chainEdges_iff.1 he
      obtain rfl : id = tail := hsource
      rw [hsplit]
      simp

theorem map_target_chainEdges (tail : NodeId) (order : List NodeId) :
    (chainEdges tail order).map Edge.target = order := by
  induction order generalizing tail with
  | nil => rfl
  | cons x rest ih => rw [chainEdges, List.map_cons, ih, chainEdge]

/-- Members of a list with distinct keys are few under one key. -/
theorem length_filter_le_one_of_nodup_map {α β : Type} [DecidableEq β] {key : α → β} {l : List α}
    (h : (l.map key).Nodup) (k : β) : (l.filter fun x => key x = k).length ≤ 1 := by
  rw [← List.countP_eq_length_filter]
  have hcount : l.countP (fun x => decide (key x = k)) = (l.map key).count k := by
    rw [List.count, List.countP_map]
    refine List.countP_congr fun x _ => ?_
    simp
  rw [hcount]
  exact List.nodup_iff_count_le_one.1 h k

/-- Two members of a flattened list lie in one part, or in parts of different
    indices. -/
theorem nodup_map_flatMap {α β ι : Type} {key : α → β} {parts : ι → List α} {indices : List ι}
    (hindices : indices.Nodup) (hpart : ∀ i ∈ indices, ((parts i).map key).Nodup)
    (hapart : ∀ i ∈ indices, ∀ j ∈ indices, i ≠ j → ∀ x ∈ parts i, ∀ y ∈ parts j, key x ≠ key y) :
    ((indices.flatMap parts).map key).Nodup := by
  induction indices with
  | nil => simp
  | cons i rest ih =>
      obtain ⟨hi, hrest⟩ := List.nodup_cons.1 hindices
      rw [List.flatMap_cons, List.map_append, List.nodup_append]
      refine ⟨hpart i List.mem_cons_self, ih hrest ?_ ?_, ?_⟩
      · exact fun j hj => hpart j (List.mem_cons_of_mem i hj)
      · exact fun j hj k hk => hapart j (List.mem_cons_of_mem i hj) k (List.mem_cons_of_mem i hk)
      · intro a ha b hb hab
        obtain ⟨x, hx, rfl⟩ := List.mem_map.1 ha
        obtain ⟨y, hy, rfl⟩ := List.mem_map.1 hb
        obtain ⟨j, hj, hy⟩ := List.mem_flatMap.1 hy
        have hne : i ≠ j := by
          rintro rfl
          exact hi hj
        exact hapart i List.mem_cons_self j (List.mem_cons_of_mem i hj) hne x hx y hy hab

/-! ## Members in order -/

theorem isOtherMerge_self (g : Graph) (first : NodeId) : isOtherMerge g first first = false := by
  simp [isOtherMerge]

theorem first_mem_blockMembers {g : Graph} {first : NodeId} (h : first ∈ blockFirsts g) :
    first ∈ blockMembers g first :=
  mem_blockMembers.2 ⟨(mem_blockFirsts.1 h).1, .refl⟩

namespace ChainedBlock

variable {s : Graph} {first : NodeId} {order : List NodeId} (h : ChainedBlock s first order)
include h

/-- The first node and those that follow it are the members. -/
theorem perm_blockMembers (hfirst : first ∈ blockFirsts s) :
    (first :: order).Perm (blockMembers s first) := by
  have hmem := first_mem_blockMembers hfirst
  refine (List.perm_ext_iff_of_nodup ?_ (nodup_blockMembers s first)).2 fun id => ?_
  · refine List.nodup_cons.2 ⟨?_, h.perm.nodup_iff.2 ((nodup_blockMembers s first).filter _)⟩
    rw [h.perm.mem_iff]
    simp
  · rw [List.mem_cons, h.perm.mem_iff, List.mem_filter]
    by_cases hid : id = first
    · simp [hid, hmem]
    · simp [hid]

theorem nodup (hfirst : first ∈ blockFirsts s) : (first :: order).Nodup :=
  (h.perm_blockMembers hfirst).nodup_iff.2 (nodup_blockMembers s first)

/-- The first node does not come again. -/
theorem ne_first_of_split (hfirst : first ∈ blockFirsts s) {before after : List NodeId} {id next : NodeId}
    (hsplit : first :: order = before ++ id :: next :: after) : next ≠ first := by
  rintro rfl
  have hnodup := h.nodup hfirst
  rcases List.cons_eq_append_iff.1 hsplit with ⟨rfl, hfront⟩ | ⟨front, rfl, htail⟩
  · obtain ⟨rfl, -⟩ := List.cons.inj hfront
    rw [hsplit] at hnodup
    simp at hnodup
  · rw [htail] at hnodup
    simp at hnodup

/-- What ends the block has no member after it. -/
theorem eq_nil_of_endsBlock {before after : List NodeId} {id : NodeId}
    (hsplit : first :: order = before ++ id :: after) (hne : id ≠ first) (hends : endsBlock s first id = true) :
    after = [] := by
  obtain ⟨front, -, htail⟩ := split_tail_of_ne hsplit hne
  exact h.endsLast front id after htail hends

/-- A merge that begins another block has no member after it. -/
theorem eq_nil_of_isOtherMerge {before after : List NodeId} {id : NodeId}
    (hsplit : first :: order = before ++ id :: after) (hmerge : isOtherMerge s first id = true) :
    after = [] := by
  refine h.eq_nil_of_endsBlock hsplit ?_ (by simp [endsBlock, hmerge])
  rintro rfl
  rw [isOtherMerge_self] at hmerge
  cases hmerge

/-- An input that comes from the block comes before. -/
theorem source_mem_before {before after : List NodeId} {id : NodeId} {e : Edge}
    (hsplit : first :: order = before ++ id :: after) (hne : id ≠ first) (he : e ∈ s.inputs id)
    (hrole : e.role.name ≠ .localSchedule) (hsource : e.source ∈ blockMembers s first) :
    e.source ∈ before := by
  obtain ⟨front, rfl, htail⟩ := split_tail_of_ne hsplit hne
  have hready := List.all_eq_true.1 (h.ready front id after htail) e he
  simpa [hrole, hne, hsource, or_comm] using hready

/-- The same for an input of the first node: there is none, but for what is
    anchored to it and for itself. -/
theorem source_eq_first {e : Edge} (he : e ∈ s.inputs first)
    (hrole : e.role.isSchedule = false) (hsource : e.source ∈ blockMembers s first) :
    e.source = first := by
  have hready := List.all_eq_true.1 h.firstReady e he
  cases hname : e.role.name <;>
    simp_all [Role.isSchedule, Role.Name.isSchedule]

end ChainedBlock

/-! ## Chain edges of a scheduled graph -/

namespace Scheduled

variable {s : Graph} {order : NodeId → List NodeId} (h : Scheduled s order)
include h

theorem mem_blockMembers_iff {first id : NodeId} (hfirst : first ∈ blockFirsts s) :
    id ∈ blockMembers s first ↔ id ∈ first :: order first :=
  ((h.block first hfirst).perm_blockMembers hfirst).mem_iff.symm

/-- What follows a node on a chain belongs to the block of the chain, and the node
    itself to no other block. -/
theorem source_of_mem_chainEdges {first : NodeId} (hfirst : first ∈ blockFirsts s) {e : Edge}
    (he : e ∈ chainEdges first (order first)) :
    e.source ∈ blockMembers s first ∧ isOtherMerge s first e.source = false := by
  obtain ⟨before, id, next, after, hsplit, rfl⟩ := mem_chainEdges_iff.1 he
  refine ⟨(h.mem_blockMembers_iff hfirst).2 (by rw [hsplit]; simp [chainEdge]), ?_⟩
  by_contra hmerge
  rw [Bool.not_eq_false] at hmerge
  cases (h.block first hfirst).eq_nil_of_isOtherMerge hsplit hmerge

theorem target_of_mem_chainEdges {first : NodeId} (hfirst : first ∈ blockFirsts s) {e : Edge}
    (he : e ∈ chainEdges first (order first)) : e.target ∈ blockMembers s first := by
  obtain ⟨before, id, next, after, hsplit, rfl⟩ := mem_chainEdges_iff.1 he
  exact (h.mem_blockMembers_iff hfirst).2 (by rw [hsplit]; simp [chainEdge])

/-- A node that two blocks have, and that neither has as another block's merge, does
    not exist. -/
theorem eq_of_mem_blockMembers {first second id : NodeId} (hfirst : first ∈ blockFirsts s)
    (hsecond : second ∈ blockFirsts s) (hid : id ∈ blockMembers s first)
    (hid' : id ∈ blockMembers s second) (hown : isOtherMerge s first id = false)
    (hown' : isOtherMerge s second id = false) : first = second := by
  by_contra hne
  rcases h.disjoint first hfirst second hsecond hne id hid hid' with hmerge | hmerge
  · rw [hown] at hmerge
    cases hmerge
  · rw [hown'] at hmerge
    cases hmerge

theorem nodup_sources : ((allChainEdges s order).map Edge.source).Nodup := by
  refine nodup_map_flatMap (nodup_blockFirsts s) (fun first hfirst => ?_) ?_
  · exact nodup_map_source_chainEdges ((h.block first hfirst).nodup hfirst)
  · intro first hfirst second hsecond hne x hx y hy hxy
    obtain ⟨hmem, hown⟩ := h.source_of_mem_chainEdges hfirst hx
    obtain ⟨hmem', hown'⟩ := h.source_of_mem_chainEdges hsecond hy
    rw [← hxy] at hmem' hown'
    exact hne (h.eq_of_mem_blockMembers hfirst hsecond hmem hmem' hown hown')

theorem nodup_targets :
    (((allChainEdges s order).filter fun e => s.op e.target ≠ .merge).map Edge.target).Nodup := by
  have hflat : (allChainEdges s order).filter (fun e => s.op e.target ≠ .merge)
      = (blockFirsts s).flatMap fun first =>
          (chainEdges first (order first)).filter fun e => s.op e.target ≠ .merge :=
    List.filter_flatMap ..
  rw [hflat]
  refine nodup_map_flatMap (nodup_blockFirsts s) (fun first hfirst => ?_) ?_
  · refine List.Nodup.sublist (List.filter_sublist.map _) ?_
    rw [map_target_chainEdges]
    exact (List.nodup_cons.1 ((h.block first hfirst).nodup hfirst)).2
  · intro first hfirst second hsecond hne x hx y hy hxy
    obtain ⟨hx, hop⟩ := List.mem_filter.1 hx
    obtain ⟨hy, -⟩ := List.mem_filter.1 hy
    -- Only a merge is in two blocks at once, and merges are left out.
    have hown : ∀ f, isOtherMerge s f x.target = false := by
      intro f
      simp [isOtherMerge, of_decide_eq_true hop]
    have hmem := h.target_of_mem_chainEdges hfirst hx
    have hmem' := h.target_of_mem_chainEdges hsecond hy
    rw [← hxy] at hmem'
    exact hne (h.eq_of_mem_blockMembers hfirst hsecond hmem hmem' (hown first) (hown second))

/-- At most one chain edge leaves a node. -/
theorem length_outputsNamed_le_one (id : NodeId) : (s.outputsNamed id .localSchedule).length ≤ 1 := by
  rw [h.chainOut]
  exact length_filter_le_one_of_nodup_map h.nodup_sources id

/-- At most one chain edge reaches a node that is no merge. -/
theorem length_inputsNamed_le_one {id : NodeId} (hop : s.op id ≠ .merge) :
    (s.inputsNamed id .localSchedule).length ≤ 1 := by
  rw [h.chainIn]
  have hsame : (allChainEdges s order).filter (fun e => e.target = id)
      = ((allChainEdges s order).filter fun e => s.op e.target ≠ .merge).filter fun e => e.target = id := by
    rw [List.filter_filter]
    refine List.filter_congr fun e _ => ?_
    by_cases he : e.target = id <;> simp [he, hop]
  rw [hsame]
  exact length_filter_le_one_of_nodup_map h.nodup_targets id

/-- The chain edge of a node leads to the next one on its chain. -/
theorem outputsNamed_of_split {first : NodeId} (hfirst : first ∈ blockFirsts s)
    {before after : List NodeId} {id next : NodeId}
    (hsplit : first :: order first = before ++ id :: next :: after) :
    s.outputsNamed id .localSchedule = [chainEdge id next] := by
  have hmem : chainEdge id next ∈ s.outputsNamed id .localSchedule := by
    rw [h.chainOut, List.mem_filter]
    refine ⟨List.mem_flatMap.2 ⟨first, hfirst, mem_chainEdges_iff.2 ⟨before, id, next, after, hsplit, rfl⟩⟩, ?_⟩
    simp [chainEdge]
  have hlen : (s.outputsNamed id .localSchedule).length = 1 :=
    Nat.le_antisymm (h.length_outputsNamed_le_one id) (List.length_pos_of_mem hmem)
  obtain ⟨e, hout⟩ := List.length_eq_one_iff.1 hlen
  rw [hout, List.mem_singleton] at hmem
  rw [hout, hmem]

/-- The last node of a chain has no chain edge, unless another block begins
    there. -/
theorem outputsNamed_of_last {first : NodeId} (hfirst : first ∈ blockFirsts s) {before : List NodeId}
    {id : NodeId} (hsplit : first :: order first = before ++ [id])
    (hown : isOtherMerge s first id = false) : s.outputsNamed id .localSchedule = [] := by
  rw [h.chainOut, List.filter_eq_nil_iff]
  intro e he hsource
  obtain rfl : e.source = id := of_decide_eq_true hsource
  obtain ⟨second, hsecond, he⟩ := List.mem_flatMap.1 he
  obtain ⟨hmem', hown'⟩ := h.source_of_mem_chainEdges hsecond he
  have hmem : e.source ∈ blockMembers s first := by
    rw [h.mem_blockMembers_iff hfirst, hsplit]
    simp
  obtain rfl := h.eq_of_mem_blockMembers hfirst hsecond hmem hmem' hown hown'
  -- A second place of the node on its chain would be a repetition.
  obtain ⟨before', x, next, after, hsplit', rfl⟩ := mem_chainEdges_iff.1 he
  have hnodup := (h.block first hfirst).nodup hfirst
  rw [hsplit'] at hsplit hnodup
  have hlast : (before' ++ x :: next :: after).getLast? = some x := by
    rw [hsplit]
    simp [chainEdge]
  rw [List.getLast?_append_cons, List.getLast?_cons_cons] at hlast
  have hx : x ∈ next :: after := List.mem_of_getLast? hlast
  have := (List.nodup_append.1 hnodup).2.1
  exact (List.nodup_cons.1 this).1 hx

end Scheduled

/-! ## Walking a chain -/

/-- The nodes met when the schedule is followed from a node: up to the end of the
    chain, or to a merge that begins another block. -/
inductive ChainWalk (s : Graph) (first : NodeId) : NodeId → List NodeId → Prop
  | merge {id : NodeId} (hmerge : isOtherMerge s first id = true) : ChainWalk s first id [id]
  | ended {id : NodeId} (hlast : s.outputsNamed id .localSchedule = []) : ChainWalk s first id [id]
  | step {id : NodeId} {e : Edge} {rest : List NodeId} (hown : isOtherMerge s first id = false)
      (hnext : s.outputsNamed id .localSchedule = [e]) (hrest : ChainWalk s first e.target rest) :
      ChainWalk s first id (id :: rest)

theorem Scheduled.chainWalk {s : Graph} {order : NodeId → List NodeId} (h : Scheduled s order)
    {first : NodeId} (hfirst : first ∈ blockFirsts s) (before after : List NodeId) {id : NodeId}
    (hsplit : first :: order first = before ++ id :: after) : ChainWalk s first id (id :: after) := by
  induction after generalizing before id with
  | nil =>
      cases hmerge : isOtherMerge s first id with
      | true => exact .merge hmerge
      | false => exact .ended (h.outputsNamed_of_last hfirst hsplit hmerge)
  | cons next after ih =>
      cases hmerge : isOtherMerge s first id with
      | true => cases (h.block first hfirst).eq_nil_of_isOtherMerge hsplit hmerge
      | false =>
          refine .step hmerge (h.outputsNamed_of_split hfirst hsplit) ?_
          exact ih (before ++ [id]) (by rw [hsplit]; simp [chainEdge])

/-! ## Floating members -/

theorem isFixed_of_beginsBlock {g : Graph} {id : NodeId} (h : g.beginsBlock id = true) :
    g.isFixed id = true := by
  unfold Graph.beginsBlock at h
  unfold Graph.isFixed
  simp only [Bool.or_eq_true, decide_eq_true_eq, List.any_eq_true] at h ⊢
  rcases h with (hop | hop) | ⟨e, he, hrole⟩
  · simp [hop, Op.isFixed]
  · simp [hop, Op.isFixed]
  · refine .inl (.inr ⟨e, he, ?_⟩)
    rcases hrole with hrole | hrole <;> simp [Role.isControl, hrole, Role.Name.isControl]

/-- What belongs to a block because of a node is anchored to it or follows it by
    control; nothing follows a merge of another block, nor a branch by control. -/
theorem mem_blockNeighbours {g : Graph} {first id next : NodeId} (h : next ∈ blockNeighbours g first id) :
    isOtherMerge g first id = false ∧ ((∃ e ∈ g.inputsNamed id .globalSchedule, e.source = next) ∨
      (g.op id ≠ .branch ∧ next ∈ g.controlSuccessors id)) := by
  unfold blockNeighbours at h
  split at h
  · cases h
  · rename_i hown
    refine ⟨by simpa using hown, ?_⟩
    rcases List.mem_append.1 h with h | h
    · exact .inl (List.mem_map.1 h)
    · split at h
      · cases h
      · rename_i hbranch
        obtain ⟨e, he, htarget⟩ := List.mem_map.1 h
        exact .inr ⟨hbranch, List.mem_map.2 ⟨e, List.mem_of_mem_filter he, htarget⟩⟩

/-- The place of one node on a chain is before that of another. -/
def Precedes (chain : List NodeId) (a b : NodeId) : Prop := chain.idxOf a < chain.idxOf b

theorem precedes_of_mem_before {chain before after : List NodeId} {a b : NodeId} (hnodup : chain.Nodup)
    (hsplit : chain = before ++ b :: after) (ha : a ∈ before) : Precedes chain a b := by
  subst hsplit
  have hb : b ∉ before := fun hb => (List.nodup_append.1 hnodup).2.2 b hb b (by simp) rfl
  have hlt : before.idxOf a < before.length := List.idxOf_lt_length_iff.2 ha
  rw [Precedes, List.idxOf_append_of_mem ha, List.idxOf_append_of_notMem hb]
  omega

/-- A floating node has one anchor, and is placed where that is. -/
theorem Scheduled.placedAt_of_anchor {s : Graph} {order : NodeId → List NodeId} (h : Scheduled s order)
    {holder last : NodeId} {e : Edge} (he : e ∈ s.inputs holder) (hrole : e.role.name = .globalSchedule)
    (hfloating : s.isFixed e.source = false) (hplaced : PlacedAt s e.source last) :
    PlacedAt s holder last := by
  obtain ⟨passed, hchain⟩ := hplaced
  cases hchain with
  | fixed hfixed =>
      rw [hfixed] at hfloating
      cases hfloating
  | @anchored _ only rest _ _ hanchor htail =>
      have hmem : e ∈ s.outputsNamed e.source .globalSchedule :=
        List.mem_filter.2 ⟨h.consistent.mem_outputs he, by simp [hrole]⟩
      rw [hanchor, List.mem_singleton] at hmem
      rw [← hmem, h.consistent.target_eq holder e he] at htail
      exact ⟨rest, htail⟩

/-- The source of an anchor floats. -/
theorem Scheduled.isFixed_of_anchored {s : Graph} {order : NodeId → List NodeId} (h : Scheduled s order)
    {id : NodeId} {e : Edge} (he : e ∈ s.inputsNamed id .globalSchedule) : s.isFixed e.source = false := by
  obtain ⟨he, hrole⟩ := List.mem_filter.1 he
  by_contra hfixed
  have hnone := h.unanchored e.source (by simpa using hfixed)
  have hmem : e ∈ s.outputsNamed e.source .globalSchedule :=
    List.mem_filter.2 ⟨h.consistent.mem_outputs he, hrole⟩
  rw [hnone] at hmem
  cases hmem

/-- A block that begins with a branch has only floating members beside it. -/
theorem Scheduled.isFixed_of_branch {s : Graph} {order : NodeId → List NodeId} (h : Scheduled s order)
    {first id : NodeId} (hbranch : s.op first = .branch) (hid : InBlock s first id) :
    id = first ∨ s.isFixed id = false := by
  induction hid with
  | refl => exact .inl rfl
  | @tail holder id _ hstep ih =>
      rcases (mem_blockNeighbours hstep).2 with ⟨e, he, rfl⟩ | ⟨hnot, hcontrol⟩
      · exact .inr (h.isFixed_of_anchored he)
      · -- Control leads on from the branch to other blocks, and from no floating node.
        rcases ih with rfl | hfloating
        · exact absurd hbranch hnot
        · rw [Graph.isFixed_of_hasControlSuccessor hcontrol] at hfloating
          cases hfloating

namespace Scheduled

variable {s : Graph} {order : NodeId → List NodeId} (h : Scheduled s order) {first : NodeId}
  (hfirst : first ∈ blockFirsts s)
include h hfirst

/-- A dependency inside a block is respected by its chain. -/
theorem precedes_of_input {id : NodeId} {e : Edge} (hid : id ∈ blockMembers s first) (hne : id ≠ first)
    (he : e ∈ s.inputs id) (hrole : e.role.name ≠ .localSchedule)
    (hsource : e.source ∈ blockMembers s first) : Precedes (first :: order first) e.source id := by
  obtain ⟨before, after, hsplit⟩ := List.append_of_mem ((h.mem_blockMembers_iff hfirst).1 hid)
  exact precedes_of_mem_before ((h.block first hfirst).nodup hfirst) hsplit
    ((h.block first hfirst).source_mem_before hsplit hne he hrole hsource)

/-- A floating member has its fixed anchor in the block, and comes before it unless
    the block begins there.  The induction is on how the member came into the
    block: control only brings fixed nodes, so a floating one is anchored to a
    member. -/
theorem placedAt_of_inBlock {id : NodeId} (hid : InBlock s first id) (hfloating : s.isFixed id = false) :
    ∃ anchor, PlacedAt s id anchor ∧ (anchor ∈ blockMembers s first ∧ isOtherMerge s first anchor = false) ∧
      (anchor ≠ first → Precedes (first :: order first) id anchor) := by
  have hbegins := (mem_blockFirsts.1 hfirst).2
  induction hid with
  | refl =>
      rw [isFixed_of_beginsBlock hbegins] at hfloating
      cases hfloating
  | @tail holder id hpath hstep ih =>
      obtain ⟨hown, hway⟩ := mem_blockNeighbours hstep
      rcases hway with ⟨e, he, rfl⟩ | ⟨-, hcontrol⟩
      · obtain ⟨he, hrole⟩ := List.mem_filter.1 he
        -- The member is anchored to one before it, so that one comes later on the chain.
        have hname : e.role.name = .globalSchedule := of_decide_eq_true hrole
        have hin : InBlock s first e.source := hpath.tail hstep
        have hsource : e.source ∈ blockMembers s first :=
          mem_blockMembers.2 ⟨h.consistent.has_source he, hin⟩
        have hholder : holder ∈ blockMembers s first :=
          mem_blockMembers.2 ⟨Graph.has_of_mem_inputs he, hpath⟩
        have hbefore : holder ≠ first → Precedes (first :: order first) e.source holder := fun hne =>
          h.precedes_of_input hfirst hholder hne he (by simp [hname]) hsource
        obtain ⟨-, last, hplaced, -⟩ := h.settled e.source (h.consistent.has_source he) hfloating
        have hlast := h.placedAt_of_anchor he hname hfloating hplaced
        cases hfixed : s.isFixed holder with
        | true =>
            -- The chain of anchors ends here.
            obtain rfl := hlast.unique ⟨[], .fixed hfixed⟩
            exact ⟨last, hplaced, ⟨hholder, hown⟩, hbefore⟩
        | false =>
            -- It goes on from a floating member, which has its fixed anchor by induction.
            obtain ⟨anchor, hanchor, hmember, hlater⟩ := ih hfixed
            obtain rfl := hlast.unique hanchor
            refine ⟨last, hplaced, hmember, fun hne => ?_⟩
            have hnotFirst : holder ≠ first := by
              rintro rfl
              rw [isFixed_of_beginsBlock hbegins] at hfixed
              cases hfixed
            exact Nat.lt_trans (hbefore hnotFirst) (hlater hne)
      · rw [h.consistent.isFixed_of_controlSuccessors hcontrol] at hfloating
        cases hfloating

end Scheduled

/-- A walk to the first node of a block can be led on to every fixed member,
    through members of the block.  Only control brings fixed nodes into a block, so
    the member that brought one in is fixed too. -/
theorem Scheduled.controlWalk {s : Graph} {order : NodeId → List NodeId} (h : Scheduled s order)
    {first id : NodeId} {earlier : List NodeId} (hwalk : s.ControlWalk (first :: earlier))
    (hid : InBlock s first id) (hfixed : s.isFixed id = true) :
    ∃ between, s.ControlWalk (id :: (between ++ earlier)) ∧
      ∀ x ∈ between, x ∈ blockMembers s first ∧ isOtherMerge s first x = false := by
  induction hid with
  | refl => exact ⟨[], hwalk, by simp⟩
  | @tail holder id hpath hstep ih =>
      obtain ⟨hown, hway⟩ := mem_blockNeighbours hstep
      rcases hway with ⟨e, he, rfl⟩ | ⟨-, hcontrol⟩
      · rw [h.isFixed_of_anchored he] at hfixed
        cases hfixed
      · obtain ⟨between, hbetween, hmem⟩ := ih (Graph.isFixed_of_hasControlSuccessor hcontrol)
        refine ⟨holder :: between, hbetween.step hcontrol, fun x hx => ?_⟩
        rcases List.mem_cons.1 hx with rfl | hx
        · obtain ⟨e, he, -⟩ := List.mem_map.1 hcontrol
          have hhas := Graph.has_of_mem_outputs (List.mem_of_mem_filter he)
          exact ⟨mem_blockMembers.2 ⟨hhas, hpath⟩, hown⟩
        · exact hmem x hx

end SeaOfNodes.Schedule
