/-
  SeaOfNodes.Proofs.Schedule.Chaining

  What chaining the blocks of a graph adds to it.  Each block contributes one
  order of its members in which a node comes after its inputs from the block and
  what ends the block comes last; the chains link these orders, and the members
  that a block owns belong to no other.  Chain edges do not change what a block
  is or which of its nodes may come next, so all of this is said about the graph
  before the first chain.
-/
import SeaOfNodes.Proofs.Schedule.Anchoring

namespace SeaOfNodes.Schedule

open Relation

/-! ## Chains do not change blocks -/

section Agree

variable {g s : Graph} (h : Graph.Agree Graph.unchained g s)
include h

theorem sameProgram_of_agree_unchained : Graph.SameProgram g s :=
  h.mono fun _ => Graph.unchained_of_unscheduled

theorem inputsNamed_globalSchedule_agree (id : NodeId) :
    s.inputsNamed id .globalSchedule = g.inputsNamed id .globalSchedule :=
  h.inputsWhere_of_le (fun role hrole => by
    simp [Graph.unchained, of_decide_eq_true hrole]) id

theorem outputsNamed_globalSchedule_agree (id : NodeId) :
    s.outputsNamed id .globalSchedule = g.outputsNamed id .globalSchedule :=
  h.outputsWhere_of_le (fun role hrole => by
    simp [Graph.unchained, of_decide_eq_true hrole]) id

theorem isOtherMerge_agree (first id : NodeId) : isOtherMerge s first id = isOtherMerge g first id := by
  unfold isOtherMerge
  rw [h.op]

theorem endsBlock_agree (first id : NodeId) : endsBlock s first id = endsBlock g first id := by
  unfold endsBlock
  rw [h.op, isOtherMerge_agree h]

theorem blockNeighbours_agree (first id : NodeId) :
    blockNeighbours s first id = blockNeighbours g first id := by
  have hprogram := sameProgram_of_agree_unchained h
  have hstays : staysInBlock s = staysInBlock g := by
    funext e
    unfold staysInBlock
    rw [h.op, h.op, hprogram.controlPredecessors]
  unfold blockNeighbours
  rw [isOtherMerge_agree h, inputsNamed_globalSchedule_agree h, h.op, hstays,
    hprogram.outputsWhere_of_le fun _ => Graph.unscheduled_of_isControl]

theorem inBlock_agree (first : NodeId) : InBlock s first = InBlock g first := by
  unfold InBlock
  rw [funext (blockNeighbours_agree h first)]

theorem blockMembers_agree (first : NodeId) : blockMembers s first = blockMembers g first := by
  have hmem : ∀ {t : Graph}, blockMembers t first
      = t.ids.filter fun id => decide (id ∈ blockMembers t first) := by
    intro t
    conv_lhs => rw [blockMembers]
    refine List.filter_congr fun id hid => ?_
    simp [blockMembers, hid]
  rw [hmem, hmem (t := g), h.ids]
  refine List.filter_congr fun id _ => ?_
  rw [decide_eq_decide, mem_blockMembers, mem_blockMembers, h.has, inBlock_agree h]

theorem isChainable_agree (first : NodeId) (members chained : List NodeId) (id : NodeId) :
    isChainable s first members chained id = isChainable g first members chained id := by
  unfold isChainable
  rw [Bool.eq_iff_iff, List.all_eq_true, List.all_eq_true]
  constructor
  · intro hall e he
    cases hrole : Graph.unchained e.role with
    | true => exact hall e ((h.mem_inputs_iff hrole).2 he)
    | false =>
        have hlocal : e.role.name = .localSchedule := by simpa [Graph.unchained] using hrole
        simp [hlocal]
  · intro hall e he
    cases hrole : Graph.unchained e.role with
    | true => exact hall e ((h.mem_inputs_iff hrole).1 he)
    | false =>
        have hlocal : e.role.name = .localSchedule := by simpa [Graph.unchained] using hrole
        simp [hlocal]

theorem terminator_agree (first : NodeId) (members : List NodeId) :
    terminator s first members = terminator g first members := by
  unfold terminator
  rw [funext fun id => endsBlock_agree h first id, funext h.label]

end Agree

/-! ## The edges of a chain -/

/-- The edges that link a node and those that follow it. -/
def chainEdges : NodeId → List NodeId → List Edge
  | _, [] => []
  | tail, id :: rest => chainEdge tail id :: chainEdges id rest

theorem role_of_mem_chainEdges {tail : NodeId} {order : List NodeId} {e : Edge}
    (he : e ∈ chainEdges tail order) : e.role = .localSchedule := by
  induction order generalizing tail with
  | nil => simp [chainEdges] at he
  | cons id rest ih =>
      rcases List.mem_cons.1 he with rfl | he
      · rfl
      · exact ih he

theorem agree_link_chain {s : Graph} {edges : List Edge} (h : s.Linkable edges)
    (hroles : ∀ e ∈ edges, e.role = .localSchedule) : Graph.Agree Graph.unchained s (s.linkAll edges) :=
  Graph.agree_linkAll h fun e he => by
    rw [hroles e he]
    rfl

/-! ## One block -/

/-- An order in which the members of a block follow its first node. -/
structure ChainedBlock (g : Graph) (first : NodeId) (order : List NodeId) : Prop where
  perm : order.Perm ((blockMembers g first).filter (· ≠ first))
  firstReady : isChainable g first (blockMembers g first) [first] first = true
  ready : ∀ before id after, order = before ++ id :: after →
    isChainable g first (blockMembers g first) (before.reverse ++ [first]) id = true
  endsLast : ∀ before id after, order = before ++ id :: after → endsBlock g first id = true →
    after = []

section Extend

variable {first : NodeId} {members : List NodeId} {last? : Option NodeId} {steps : Nat} {s s' : Graph}
  {chained : List NodeId} {tail : NodeId}

/-- A step links a member whose inputs are chained, and links what ends the block only
    when nothing else is left; then the chain goes on with the others. -/
theorem extendChain_succ_done {x : NodeId} {others : List NodeId}
    (h : extendChain first members last? (steps + 1) s chained tail (x :: others) = .done s' ()) :
    ∃ id ∈ x :: others, isChainable s first members chained id = true ∧ (some id = last? → others = []) ∧
      s.has tail = true ∧ s.has id = true ∧
      extendChain first members last? steps (s.linkEdge (chainEdge tail id)) (id :: chained) id
        ((x :: others).erase id) = .done s' () := by
  rw [extendChain] at h
  split at h
  · cases h
  · rename_i id hfind
    have heligible := List.find?_some hfind
    simp only [Bool.and_eq_true, Bool.not_eq_true', Bool.and_eq_false_iff, decide_eq_false_iff_not,
      Nat.not_lt] at heligible
    obtain ⟨hnotlast, hready⟩ := heligible
    have hlast : some id = last? → others = [] := fun hid => by
      have hshort := hnotlast.resolve_left fun hne => hne hid
      exact List.length_eq_zero_iff.1 (Nat.le_zero.1 (Nat.le_of_succ_le_succ hshort))
    cases hconnect : s.connect (chainEdge tail id) with
    | error cause => simp [hconnect, Outcome.failed, Outcome.done] at h
    | ok next =>
        obtain ⟨htail, hlive, rfl⟩ := Graph.connect_eq_ok.1 hconnect
        simp only [hconnect] at h
        exact ⟨id, List.mem_of_find?_eq_some hfind, hready, hlast, htail, hlive, h⟩

/-- The members that remain are linked in some order; each may come next when it
    does, and the last one waits for all others. -/
theorem extendChain_done {g : Graph} {pending : List NodeId}
    (hagree : Graph.Agree Graph.unchained g s) (hsteps : pending.length ≤ steps)
    (h : extendChain first members last? steps s chained tail pending = .done s' ()) :
    ∃ order, order.Perm pending ∧ s.Linkable (chainEdges tail order) ∧
      s' = s.linkAll (chainEdges tail order) ∧
      (∀ before id after, order = before ++ id :: after →
        isChainable g first members (before.reverse ++ chained) id = true ∧
          (some id = last? → after = [])) := by
  induction steps generalizing s chained tail pending with
  | zero =>
      obtain rfl : pending = [] := List.length_eq_zero_iff.1 (Nat.le_zero.1 hsteps)
      cases h
      exact ⟨[], .refl _, by simp [Graph.Linkable, chainEdges], rfl, by simp⟩
  | succ steps ih =>
      cases pending with
      | nil =>
          cases h
          exact ⟨[], .refl _, by simp [Graph.Linkable, chainEdges], rfl, by simp⟩
      | cons x others =>
          obtain ⟨id, hid, hready, hlast, htail, hlive, hrest⟩ := extendChain_succ_done h
          have hlink : Graph.Agree Graph.unchained g (s.linkEdge (chainEdge tail id)) :=
            hagree.trans (Graph.agree_linkEdge htail hlive rfl)
          have hlen : ((x :: others).erase id).length = others.length := by
            rw [List.length_erase_of_mem hid, List.length_cons, Nat.add_sub_cancel]
          obtain ⟨rest, hperm, hlinkable, hs', hall⟩ :=
            ih hlink (hlen.trans_le (Nat.le_of_succ_le_succ hsteps)) hrest
          refine ⟨id :: rest, (hperm.cons id).trans (List.perm_cons_erase hid).symm, ?_, hs', ?_⟩
          · exact List.forall_mem_cons.2 ⟨⟨htail, hlive⟩, fun e he => by simpa using hlinkable e he⟩
          · -- The member linked now had only the old chain before it; the others come by induction.
            intro before y after hsplit
            rcases List.cons_eq_append_iff.1 hsplit with ⟨rfl, hfront⟩ | ⟨before, rfl, htail⟩
            · obtain ⟨rfl, rfl⟩ := List.cons.inj hfront
              rw [isChainable_agree hagree] at hready
              refine ⟨hready, fun hy => ?_⟩
              rw [← List.length_eq_zero_iff, hperm.length_eq, hlen, hlast hy, List.length_nil]
            · simpa using hall before y after htail

end Extend

/-- Only the terminator ends a block, apart from its first node. -/
theorem terminator_eq_ok {g : Graph} {first : NodeId} {members : List NodeId} {last? : Option NodeId}
    (h : terminator g first members = .ok last?) {id : NodeId} (hid : id ∈ members) (hne : id ≠ first) :
    some id = last? ↔ endsBlock g first id = true := by
  have hmem : endsBlock g first id = true ↔ id ∈ members.filter fun id => id ≠ first && endsBlock g first id := by
    simp [hid, hne]
  rw [hmem]
  unfold terminator at h
  split at h
  · rename_i hnil
    cases h
    rw [hnil]
    simp
  · rename_i only hone
    cases h
    rw [hone]
    simp
  · cases h

/-- A block is chained from its first node, where that waits for no other member. -/
theorem chainBlock_eq_done {g s : Graph} {first : NodeId} {members : List NodeId}
    (h : chainBlock g first members = .done s ()) :
    ∃ last?, terminator g first members = .ok last? ∧ isChainable g first members [first] first = true ∧
      extendChain first members last? (members.filter (· ≠ first)).length g [first] first
        (members.filter (· ≠ first)) = .done s () := by
  rw [chainBlock] at h
  cases hlast : terminator g first members with
  | error cause => simp [hlast, Outcome.failed, Outcome.done] at h
  | ok last? =>
      simp only [hlast] at h
      split at h
      · cases h
      · rename_i hready
        exact ⟨last?, rfl, by simpa using hready, h⟩

/-- Chaining a block links its members in such an order. -/
theorem chainBlock_done {g s s' : Graph} {first : NodeId} (hagree : Graph.Agree Graph.unchained g s)
    (h : chainBlock s first (blockMembers g first) = .done s' ()) :
    ∃ order, ChainedBlock g first order ∧ s.Linkable (chainEdges first order) ∧
      s' = s.linkAll (chainEdges first order) := by
  obtain ⟨last?, hlast, hready, hrun⟩ := chainBlock_eq_done h
  rw [terminator_agree hagree] at hlast
  rw [isChainable_agree hagree] at hready
  obtain ⟨order, hperm, hlinkable, hs', hall⟩ := extendChain_done hagree (Nat.le_refl _) hrun
  refine ⟨order, ⟨hperm, hready, fun before id after hsplit => (hall before id after hsplit).1,
    fun before id after hsplit hends => ?_⟩, hlinkable, hs'⟩
  have hid : id ∈ (blockMembers g first).filter (· ≠ first) := by
    rw [← hperm.mem_iff, hsplit]
    simp
  obtain ⟨hmember, hne⟩ := List.mem_filter.1 hid
  exact (hall before id after hsplit).2 ((terminator_eq_ok hlast hmember (of_decide_eq_true hne)).2 hends)

/-! ## All blocks -/

/-- Claiming members succeeds when none of them is owned, and makes all of them
    owned. -/
theorem claim_eq_ok {g : Graph} {first : NodeId} {owners owners' : List (NodeId × NodeId)}
    {members : List NodeId} (h : claim g first owners members = .ok owners') :
    (∀ id, (owners.lookup id).isSome → (owners'.lookup id).isSome) ∧
      ∀ id ∈ members, isOtherMerge g first id = false →
        owners.lookup id = none ∧ (owners'.lookup id).isSome := by
  induction members generalizing owners with
  | nil =>
      cases h
      simp
  | cons x rest ih =>
      rw [claim] at h
      split at h
      · rename_i hmerge
        -- A merge that begins another block is passed over, owned or not.
        obtain ⟨hmono, hrest⟩ := ih h
        refine ⟨hmono, fun id hid hother => ?_⟩
        rcases List.mem_cons.1 hid with rfl | hid
        · rw [hmerge] at hother
          cases hother
        · exact hrest id hid hother
      · split at h
        · cases h
        · rename_i hnone
          have hgrow : ∀ id, (owners.lookup id).isSome → (((x, first) :: owners).lookup id).isSome := by
            intro id hid
            rw [List.lookup_cons]
            split <;> simp [hid]
          obtain ⟨hmono, hrest⟩ := ih h
          refine ⟨fun id hid => hmono id (hgrow id hid), fun id hid hother => ?_⟩
          rcases List.mem_cons.1 hid with rfl | hid
          · exact ⟨hnone, hmono id (by simp)⟩
          · -- What is free after a claim was free before it.
            obtain ⟨hfree, hsome⟩ := hrest id hid hother
            refine ⟨?_, hsome⟩
            by_contra howned
            have := hgrow id (Option.isSome_iff_ne_none.2 howned)
            simp [hfree] at this

/-- Two blocks share no node but merges that begin another block. -/
def Disjoint (g : Graph) (first second : NodeId) : Prop :=
  ∀ id ∈ blockMembers g first, id ∈ blockMembers g second →
    isOtherMerge g first id = true ∨ isOtherMerge g second id = true

/-- The chains of a list of blocks. -/
structure ChainedBlocks (g s s' : Graph) (firsts : List NodeId) (order : NodeId → List NodeId) : Prop where
  block : ∀ first ∈ firsts, ChainedBlock g first (order first)
  linkable : s.Linkable (firsts.flatMap fun first => chainEdges first (order first))
  graph : s' = s.linkAll (firsts.flatMap fun first => chainEdges first (order first))
  disjoint : firsts.Pairwise (Disjoint g)

/-- One more block in front of those that are chained after it. -/
theorem ChainedBlocks.cons {g s s' : Graph} {first : NodeId} {rest chain : List NodeId} {order : NodeId → List NodeId}
    (h : ChainedBlocks g (s.linkAll (chainEdges first chain)) s' rest order) (hblock : ChainedBlock g first chain)
    (hlinkable : s.Linkable (chainEdges first chain)) (hnew : first ∉ rest)
    (hdisjoint : ∀ other ∈ rest, Disjoint g first other) :
    ChainedBlocks g s s' (first :: rest) (Function.update order first chain) := by
  -- The new chain is looked up at `first`, the others as before.
  have hold : ∀ other ∈ rest, Function.update order first chain other = order other := by
    intro other hother
    have hne : other ≠ first := by
      rintro rfl
      exact hnew hother
    exact Function.update_of_ne hne _ _
  have hedges : (rest.flatMap fun other => chainEdges other (Function.update order first chain other))
      = rest.flatMap fun other => chainEdges other (order other) :=
    List.flatMap_congr fun other hother => by rw [hold other hother]
  refine ⟨fun other hother => ?_, fun e he => ?_, ?_, List.pairwise_cons.2 ⟨hdisjoint, h.disjoint⟩⟩
  · rcases List.mem_cons.1 hother with rfl | hother
    · rwa [Function.update_self]
    · rw [hold other hother]
      exact h.block other hother
  · rw [List.flatMap_cons, hedges, Function.update_self] at he
    rcases List.mem_append.1 he with he | he
    · exact hlinkable e he
    · simpa using h.linkable e he
  · rw [List.flatMap_cons, hedges, Function.update_self, Graph.linkAll_append]
    exact h.graph

/-- Before the blocks that follow are chained, the members of the first one are claimed and
    linked. -/
theorem chainBlocks_cons_done {c c' : Chaining} {first : NodeId} {rest : List NodeId}
    (h : chainBlocks c (first :: rest) = .done c' ()) :
    ∃ owners s blocks, claim c.graph first c.owners (blockMembers c.graph first) = .ok owners ∧
      chainBlock c.graph first (blockMembers c.graph first) = .done s () ∧
      chainBlocks ⟨s, owners, blocks⟩ rest = .done c' () := by
  rw [chainBlocks] at h
  cases hclaim : claim c.graph first c.owners (blockMembers c.graph first) with
  | error cause => simp [hclaim, Outcome.failed, Outcome.done] at h
  | ok owners =>
      simp only [hclaim] at h
      cases hchain : chainBlock c.graph first (blockMembers c.graph first) with
      | mk s result =>
          cases result with
          | error cause => simp [hchain, Outcome.failed, Outcome.done] at h
          | ok _ =>
              simp only [hchain] at h
              exact ⟨owners, s, _, rfl, rfl, h⟩

/-- The blocks are chained one by one.  A member that was owned when its turn came would have
    been refused, so no two of the blocks have an own member in common. -/
theorem chainBlocks_done {g : Graph} {c c' : Chaining} {firsts : List NodeId}
    (hagree : Graph.Agree Graph.unchained g c.graph) (hnodup : firsts.Nodup)
    (h : chainBlocks c firsts = .done c' ()) :
    (∃ order, ChainedBlocks g c.graph c'.graph firsts order) ∧
      ∀ first ∈ firsts, ∀ id ∈ blockMembers g first, isOtherMerge g first id = false →
        c.owners.lookup id = none := by
  induction firsts generalizing c with
  | nil =>
      cases h
      exact ⟨⟨fun _ => [], by simp, by simp [Graph.Linkable], rfl, .nil⟩, by simp⟩
  | cons first rest ih =>
      obtain ⟨owners, s, blocks, hclaim, hchain, hrest⟩ := chainBlocks_cons_done h
      rw [blockMembers_agree hagree] at hclaim hchain
      obtain ⟨chain, hblock, hlinkable, rfl⟩ := chainBlock_done hagree hchain
      obtain ⟨hfirst, hnodup⟩ := List.nodup_cons.1 hnodup
      have hlink := hagree.trans (agree_link_chain hlinkable fun e he => role_of_mem_chainEdges he)
      obtain ⟨⟨order, hothers⟩, hunowned⟩ := ih hlink hnodup hrest
      obtain ⟨hmono, hclaimed⟩ := claim_eq_ok hclaim
      have hown : ∀ id ∈ blockMembers g first, isOtherMerge g first id = false →
          c.owners.lookup id = none ∧ (owners.lookup id).isSome := fun id hid hother =>
        hclaimed id hid (by rw [isOtherMerge_agree hagree]; exact hother)
      refine ⟨⟨_, hothers.cons hblock hlinkable hfirst fun other hother id hid hid' => ?_⟩,
        fun f hf id hid hother => ?_⟩
      · -- The first block owns its members, so a block behind it would have been refused them.
        by_contra hnone
        rw [not_or, Bool.not_eq_true, Bool.not_eq_true] at hnone
        have hnew := (hown id hid hnone.1).2
        rw [hunowned other hother id hid' hnone.2] at hnew
        cases hnew
      · rcases List.mem_cons.1 hf with rfl | hf
        · exact (hown id hid hother).1
        · by_contra howned
          have hnew := hmono id (Option.isSome_iff_ne_none.2 howned)
          rw [hunowned f hf id hid hother] at hnew
          cases hnew

/-! ## However chaining ends -/

section Ends

variable {P : Graph → Prop}
  (hstep : ∀ {s : Graph} {tail id : NodeId}, P s → s.has tail = true → s.has id = true →
    P (s.linkEdge (chainEdge tail id)))
include hstep

/-- What a link keeps holds when a chain is extended or cannot be.  Links between live nodes
    are never refused, so what is wrong is the order. -/
theorem extendChain_ends {first : NodeId} {members : List NodeId} {last? : Option NodeId} {steps : Nat} {s : Graph}
    {chained : List NodeId} {tail : NodeId} {pending : List NodeId} (h : P s) (htail : s.has tail = true)
    (hpending : ∀ id ∈ pending, s.has id = true) :
    (extendChain first members last? steps s chained tail pending).Ends (fun s _ => P s)
      fun s cause => P s ∧ ∃ problem, cause = .blockOrder problem := by
  induction steps generalizing s chained tail pending with
  | zero => exact h
  | succ steps ih =>
      cases pending with
      | nil => exact h
      | cons x others =>
          rw [extendChain]
          split
          · exact ⟨h, _, rfl⟩
          · rename_i id hfind
            have hid : s.has id = true := hpending id (List.mem_of_find?_eq_some hfind)
            have hconnect : s.connect (chainEdge tail id) = .ok (s.linkEdge (chainEdge tail id)) :=
              Graph.connect_eq_ok.2 ⟨htail, hid, rfl⟩
            rw [hconnect]
            refine ih (hstep h htail hid) (by rw [Graph.has_linkEdge]; exact hid) fun y hy => ?_
            rw [Graph.has_linkEdge]
            exact hpending y (List.mem_of_mem_erase hy)

theorem chainBlock_ends {s : Graph} {first : NodeId} {members : List NodeId} (h : P s)
    (hfirst : s.has first = true) (hmembers : ∀ id ∈ members, s.has id = true) :
    (chainBlock s first members).Ends (fun s _ => P s) fun s cause => P s ∧ ∃ problem, cause = .blockOrder problem := by
  rw [chainBlock]
  split
  · rename_i cause hends
    refine ⟨h, ?_⟩
    unfold terminator at hends
    split at hends
    · cases hends
    · cases hends
    · exact ⟨_, (Except.error.inj hends).symm⟩
  · split
    · exact ⟨h, _, rfl⟩
    · exact extendChain_ends hstep h hfirst fun id hid => hmembers id (List.mem_filter.1 hid).1

omit hstep in
theorem claim_error {g : Graph} {first : NodeId} {owners : List (NodeId × NodeId)} {members : List NodeId}
    {cause : Error} (h : claim g first owners members = .error cause) : ∃ problem, cause = .blockOrder problem := by
  induction members generalizing owners with
  | nil => cases h
  | cons id rest ih =>
      rw [claim] at h
      split at h
      · exact ih h
      · split at h
        · exact ⟨_, (Except.error.inj h).symm⟩
        · exact ih h

theorem chainBlocks_ends {c : Chaining} {firsts : List NodeId} (h : P c.graph)
    (hfirsts : ∀ first ∈ firsts, c.graph.has first = true) :
    (chainBlocks c firsts).Ends (fun c _ => P c.graph)
      fun c cause => P c.graph ∧ ∃ problem, cause = .blockOrder problem := by
  induction firsts generalizing c with
  | nil => exact h
  | cons first rest ih =>
      rw [chainBlocks]
      cases hclaim : claim c.graph first c.owners (blockMembers c.graph first) with
      | error cause => exact ⟨h, claim_error hclaim⟩
      | ok owners =>
          have hlive : ∀ id ∈ blockMembers c.graph first, c.graph.has id = true := fun id hid =>
            (mem_blockMembers.1 hid).1
          -- The nodes stay, so the blocks to come begin with live ones still.
          have hblock := chainBlock_ends (P := fun s => P s ∧ ∀ id, s.has id = c.graph.has id)
            (fun hs htail hid => ⟨hstep hs.1 htail hid, fun id => by rw [Graph.has_linkEdge, hs.2]⟩)
            ⟨h, fun _ => rfl⟩ (hfirsts first List.mem_cons_self) hlive
          cases hchain : chainBlock c.graph first (blockMembers c.graph first) with
          | mk s result =>
              cases result with
              | error cause =>
                  obtain ⟨hs, hcause⟩ := hblock.of_eq_error hchain
                  exact ⟨hs.1, hcause⟩
              | ok _ =>
                  obtain ⟨hs, hhas⟩ := hblock.of_eq_ok hchain
                  refine ih hs fun f hf => ?_
                  rw [hhas]
                  exact hfirsts f (List.mem_cons_of_mem first hf)

theorem chainAll_ends {g : Graph} (h : P g) :
    (chainAll g).Ends (fun c _ => P c.graph) fun c cause => P c.graph ∧ ∃ problem, cause = .blockOrder problem :=
  chainBlocks_ends hstep h fun _ hfirst => Graph.mem_ids.1 (List.mem_filter.1 hfirst).1

end Ends

end SeaOfNodes.Schedule
