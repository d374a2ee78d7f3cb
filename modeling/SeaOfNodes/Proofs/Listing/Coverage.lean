/-
  SeaOfNodes.Proofs.Listing.Coverage

  The chains of a plan, on any graph whatsoever.  The schedule edges may loop, meet
  or run into other blocks; a plan is made only where following them from the nodes
  that begin a block meets every live node once.  The bound on the walk, the check
  for nodes met twice and the check for nodes never met are all needed for this.
-/
import SeaOfNodes.Listing.Linearize
import SeaOfNodes.Proofs.Except
import SeaOfNodes.Proofs.Listing.Blocks
import Mathlib.Data.List.Nodup

namespace SeaOfNodes.Listing

open Schedule

/-! ## Following the schedule -/

/-- The nodes met by following the schedule, and the merge that ended the walk. -/
inductive Follows (g : Graph) : List NodeId → Option NodeId → Prop
  | ends {id : NodeId} (hnone : g.outputsNamed id .localSchedule = []) : Follows g [id] none
  | flows {id : NodeId} {e : Edge} (hnext : g.outputsNamed id .localSchedule = [e])
      (hmerge : g.op e.target = .merge) : Follows g [id] (some e.target)
  | goesOn {id : NodeId} {e : Edge} {rest : List NodeId} {merge? : Option NodeId}
      (hnext : g.outputsNamed id .localSchedule = [e]) (hown : g.op e.target ≠ .merge)
      (hrest : Follows g (e.target :: rest) merge?) : Follows g (id :: e.target :: rest) merge?

namespace Follows

variable {g : Graph} {nodes : List NodeId} {merge? : Option NodeId} (h : Follows g nodes merge?)
include h

/-- Only the first node of a walk can be a merge. -/
theorem op_ne_merge : ∀ id ∈ nodes.tail, g.op id ≠ .merge := by
  induction h with
  | ends _ => simp
  | flows _ _ => simp
  | @goesOn id e rest _ _ hown _ ih =>
      intro x hx
      rcases List.mem_cons.1 hx with rfl | hx
      · exact hown
      · exact ih x hx

/-- A walk from a live node stays among live nodes. -/
theorem has_of_mem (hg : g.Consistent) (hfirst : ∀ id ∈ nodes.head?, g.has id = true) :
    ∀ id ∈ nodes, g.has id = true := by
  induction h with
  | ends _ =>
      intro x hx
      exact hfirst x (by simpa [eq_comm] using hx)
  | flows _ _ =>
      intro x hx
      exact hfirst x (by simpa [eq_comm] using hx)
  | @goesOn id e rest _ hnext _ _ ih =>
      intro x hx
      rcases List.mem_cons.1 hx with rfl | hx
      · exact hfirst x rfl
      · have he : e ∈ g.outputs id := by
          have hmem : e ∈ g.outputsNamed id .localSchedule := by simp [hnext]
          exact List.mem_of_mem_filter hmem
        refine ih (fun y hy => ?_) x hx
        cases hy
        exact hg.has_target he

end Follows

theorem follows_of_followChain {g : Graph} {first id : NodeId} {steps : Nat} {nodes : List NodeId}
    {merge? : Option NodeId} (h : followChain g first steps id = .ok (nodes, merge?)) :
    nodes.head? = some id ∧ Follows g nodes merge? := by
  induction steps generalizing id nodes with
  | zero => simp [followChain] at h
  | succ steps ih =>
      rw [followChain] at h
      split at h
      · rename_i hnext
        cases h
        exact ⟨rfl, .ends hnext⟩
      · rename_i e hnext
        by_cases hmerge : g.op e.target = .merge
        · simp only [if_pos hmerge] at h
          cases h
          exact ⟨rfl, .flows hnext hmerge⟩
        · simp only [if_neg hmerge] at h
          obtain ⟨⟨rest, merge?'⟩, hrest, hpair⟩ := map_eq_ok.1 h
          cases hpair
          obtain ⟨hhead, hfollows⟩ := ih hrest
          obtain ⟨tail, rfl⟩ := List.head?_eq_some_iff.1 hhead
          exact ⟨rfl, .goesOn hnext hmerge hfollows⟩
      · cases h

/-- A chain is what is met by following the schedule from a node that begins a
    block. -/
structure Traced (g : Graph) (c : Chain) : Prop where
  first_mem : c.first ∈ blockFirsts g
  head_eq : c.nodes.head? = some c.first
  follows : Follows g c.nodes c.merge?

theorem traced_of_chainFrom {g : Graph} {first : NodeId} (hfirst : first ∈ blockFirsts g) {c : Chain}
    (h : chainFrom g first = .ok c) : Traced g c := by
  obtain ⟨⟨nodes, merge?⟩, hfollow, rfl⟩ := map_eq_ok.1 h
  obtain ⟨hhead, hfollows⟩ := follows_of_followChain hfollow
  exact ⟨hfirst, hhead, hfollows⟩

namespace Traced

variable {g : Graph} {c : Chain} (h : Traced g c)
include h

theorem nodes_eq : c.nodes = c.first :: c.nodes.tail := by
  obtain ⟨rest, hrest⟩ := List.head?_eq_some_iff.1 h.head_eq
  rw [hrest, List.tail_cons]

theorem first_mem_nodes : c.first ∈ c.nodes := List.mem_of_head? h.head_eq

end Traced

/-! ## Every node on one chain -/

/-- The nodes noted are those of the list, the latest first, and none is noted
    twice. -/
theorem coverNodes_eq_ok {g : Graph} {first : NodeId} {nodes : List NodeId}
    {seen seen' : List (NodeId × NodeId)} (h : coverNodes g first seen nodes = .ok seen')
    (hseen : (seen.map Prod.fst).Nodup) :
    seen'.map Prod.fst = nodes.reverse ++ seen.map Prod.fst ∧ (seen'.map Prod.fst).Nodup := by
  induction nodes generalizing seen with
  | nil =>
      cases h
      exact ⟨rfl, hseen⟩
  | cons id rest ih =>
      rw [coverNodes] at h
      cases hlookup : seen.lookup id with
      | some owner =>
          simp only [hlookup] at h
          cases h
      | none =>
          simp only [hlookup] at h
          have hfresh : id ∉ seen.map Prod.fst := by
            intro hmem
            obtain ⟨⟨key, owner⟩, hentry, rfl⟩ := List.mem_map.1 hmem
            rw [(lookup_eq_some_iff_mem hseen).2 hentry] at hlookup
            cases hlookup
          obtain ⟨hkeys, hnodup⟩ := ih h (List.nodup_cons.2 ⟨hfresh, hseen⟩)
          refine ⟨?_, hnodup⟩
          rw [hkeys, List.map_cons, List.reverse_cons, List.append_assoc, List.singleton_append]

theorem foldlM_coverNodes_eq_ok {g : Graph} {chains : List Chain} {seen seen' : List (NodeId × NodeId)}
    (h : chains.foldlM (fun seen c => coverNodes g c.first seen c.nodes) seen = .ok seen')
    (hseen : (seen.map Prod.fst).Nodup) :
    seen'.map Prod.fst = (chains.flatMap Chain.nodes).reverse ++ seen.map Prod.fst ∧
      (seen'.map Prod.fst).Nodup := by
  induction chains generalizing seen with
  | nil =>
      rw [List.foldlM_nil, pure_eq_ok] at h
      subst h
      exact ⟨rfl, hseen⟩
  | cons c rest ih =>
      rw [List.foldlM_cons] at h
      obtain ⟨next, hnext, hrest⟩ := bind_eq_ok.1 h
      obtain ⟨hkeys, hnodup⟩ := coverNodes_eq_ok hnext hseen
      obtain ⟨hkeys', hnodup'⟩ := ih hrest hnodup
      refine ⟨?_, hnodup'⟩
      rw [hkeys', hkeys, List.flatMap_cons, List.reverse_append, List.append_assoc]

/-- Chains that pass the check meet no node twice, and every live one. -/
theorem checkCoverage_eq_ok {g : Graph} {chains : List Chain} (h : checkCoverage g chains = .ok ()) :
    (chains.flatMap Chain.nodes).Nodup ∧ ∀ id, g.has id = true → id ∈ chains.flatMap Chain.nodes := by
  rw [checkCoverage] at h
  obtain ⟨seen, hseen, h⟩ := bind_eq_ok.1 h
  obtain ⟨hkeys, hnodup⟩ := foldlM_coverNodes_eq_ok hseen (by simp)
  rw [List.map_nil, List.append_nil] at hkeys
  rw [hkeys, List.nodup_reverse] at hnodup
  refine ⟨hnodup, fun id hid => ?_⟩
  cases hfind : g.ids.find? fun id => (seen.lookup id).isNone with
  | some missing =>
      simp only [hfind] at h
      cases h
  | none =>
      have hnote := List.find?_eq_none.1 hfind id (Graph.mem_ids.2 hid)
      rw [Option.isNone_iff_eq_none] at hnote
      obtain ⟨owner, howner⟩ := Option.ne_none_iff_exists'.1 hnote
      have hkey : id ∈ seen.map Prod.fst := by
        have hentry := List.lookup_eq_some_iff.1 howner
        obtain ⟨front, back, hsplit, -⟩ := hentry
        rw [hsplit]
        simp
      rw [hkeys, List.mem_reverse] at hkey
      exact hkey

/-- Chains that begin where the blocks do and share the live nodes among them. -/
structure Covers (g : Graph) (chains : List Chain) : Prop where
  traced : ∀ c ∈ chains, Traced g c
  firsts : (chains.map Chain.first).Perm (blockFirsts g)
  nodup : (chains.flatMap Chain.nodes).Nodup
  mem_iff : ∀ id, id ∈ chains.flatMap Chain.nodes ↔ g.has id = true

theorem traced_of_collectChains {g : Graph} {chains : List Chain} (h : collectChains g = .ok chains) :
    chains.map Chain.first = blockFirsts g ∧ ∀ c ∈ chains, Traced g c := by
  rw [collectChains, mapM_eq_ok] at h
  change List.Forall₂ _ (blockFirsts g) chains at h
  constructor
  · have hfirsts : List.Forall₂ (fun first c => first = Chain.first c) (blockFirsts g) chains := by
      refine h.imp fun first c hc => ?_
      obtain ⟨_, -, rfl⟩ := map_eq_ok.1 hc
      rfl
    rw [← List.forall₂_map_right_iff, List.forall₂_eq_eq_eq] at hfirsts
    exact hfirsts.symm
  · intro c hc
    obtain ⟨first, hfirst, hchain⟩ := forall₂_mem_right h hc
    exact traced_of_chainFrom hfirst hchain

theorem covers_of_plan {g : Graph} (hg : g.Consistent) {chains : List Chain} {layout : Layout}
    (h : plan g = .ok (chains, layout)) : Covers g chains := by
  rw [plan] at h
  obtain ⟨collected, hcollect, h⟩ := bind_eq_ok.1 h
  obtain ⟨⟨⟩, hcheck, h⟩ := bind_eq_ok.1 h
  obtain ⟨ordered, horder, h⟩ := bind_eq_ok.1 h
  obtain ⟨_, -, hpair⟩ := bind_eq_ok.1 h
  cases hpair
  obtain ⟨hfirsts, htraced⟩ := traced_of_collectChains hcollect
  obtain ⟨hnodup, hall⟩ := checkCoverage_eq_ok hcheck
  -- Blocks that return are put last, which moves whole chains and no node of one.
  have hperm := (orderChains_eq_ok horder).1
  have hnodes : (chains.flatMap Chain.nodes).Perm (collected.flatMap Chain.nodes) :=
    hperm.flatMap_right Chain.nodes
  have htraced : ∀ c ∈ chains, Traced g c := fun c hc => htraced c (hperm.mem_iff.1 hc)
  refine ⟨htraced, hfirsts ▸ hperm.map Chain.first, hnodes.nodup_iff.2 hnodup, fun id => ⟨?_, ?_⟩⟩
  · intro hid
    obtain ⟨c, hc, hid⟩ := List.mem_flatMap.1 hid
    have hc := htraced c hc
    refine hc.follows.has_of_mem hg (fun x hx => ?_) id hid
    rw [hc.head_eq] at hx
    cases hx
    exact (mem_blockFirsts.1 hc.first_mem).1
  · intro hid
    exact hnodes.mem_iff.2 (hall id hid)

namespace Covers

variable {g : Graph} {chains : List Chain} (h : Covers g chains)
include h

theorem nodup_nodes {c : Chain} (hc : c ∈ chains) : c.nodes.Nodup :=
  (List.nodup_flatMap.1 h.nodup).1 c hc

theorem exists_chain {id : NodeId} (hid : g.has id = true) :
    ∃ (i : Nat) (c : Chain), chains[i]? = some c ∧ id ∈ c.nodes := by
  obtain ⟨c, hc, hmem⟩ := List.mem_flatMap.1 ((h.mem_iff id).2 hid)
  obtain ⟨i, hi⟩ := List.mem_iff_getElem?.1 hc
  exact ⟨i, c, hi, hmem⟩

theorem has_of_mem {c : Chain} (hc : c ∈ chains) {id : NodeId} (hid : id ∈ c.nodes) : g.has id = true :=
  (h.mem_iff id).1 (List.mem_flatMap.2 ⟨c, hc, hid⟩)

/-- No node is on two chains. -/
theorem index_unique {i j : Nat} {c d : Chain} (hc : chains[i]? = some c) (hd : chains[j]? = some d)
    {id : NodeId} (hid : id ∈ c.nodes) (hid' : id ∈ d.nodes) : i = j := by
  obtain ⟨hi, rfl⟩ := List.getElem?_eq_some_iff.1 hc
  obtain ⟨hj, rfl⟩ := List.getElem?_eq_some_iff.1 hd
  have hapart := List.pairwise_iff_getElem.1 (List.nodup_flatMap.1 h.nodup).2
  rcases Nat.lt_trichotomy i j with hlt | heq | hlt
  · exact (hapart i j hi hj hlt hid hid').elim
  · exact heq
  · exact (hapart j i hj hi hlt hid' hid).elim

/-- Every node of a chain but the first emits an instruction: a merge ends the walk
    before it, and a start is the first of a chain of its own. -/
theorem emits_of_mem_tail {c : Chain} (hc : c ∈ chains) {id : NodeId} (hid : id ∈ c.nodes.tail) :
    emits g id = true := by
  have hmerge := (h.traced c hc).follows.op_ne_merge id hid
  have hstart : g.op id ≠ .start := by
    intro hop
    have hhas := h.has_of_mem hc (List.mem_of_mem_tail hid)
    have hfirst : id ∈ blockFirsts g := mem_blockFirsts.2 ⟨hhas, by simp [Graph.beginsBlock, hop]⟩
    obtain ⟨d, hd, rfl⟩ := List.mem_map.1 (h.firsts.mem_iff.2 hfirst)
    obtain ⟨i, hi⟩ := List.mem_iff_getElem?.1 hc
    obtain ⟨j, hj⟩ := List.mem_iff_getElem?.1 hd
    -- A start begins a chain, so the two chains are one and it would be on that twice.
    have hsame := h.index_unique hi hj (List.mem_of_mem_tail hid) (h.traced d hd).first_mem_nodes
    rw [hsame, hj, Option.some.injEq] at hi
    subst hi
    have hnodup := h.nodup_nodes hd
    rw [(h.traced d hd).nodes_eq] at hnodup
    exact (List.nodup_cons.1 hnodup).1 hid
  simp [emits, hmerge, hstart]

/-- A chain that ends with its first node has no other. -/
theorem nodes_eq_singleton {c : Chain} (hc : c ∈ chains) (hlast : c.nodes.getLast? = some c.first) :
    c.nodes = [c.first] := by
  have hnodes := (h.traced c hc).nodes_eq
  have hnodup := h.nodup_nodes hc
  rw [hnodes] at hlast hnodup
  cases htail : c.nodes.tail with
  | nil => rw [hnodes, htail]
  | cons x rest =>
      rw [htail, List.getLast?_cons_cons] at hlast
      rw [htail] at hnodup
      exact absurd (List.mem_of_getLast? hlast) (List.nodup_cons.1 hnodup).1

/-- A node that emits an instruction ends its chain exactly if no other
    instruction of the chain follows its own. -/
theorem getLast?_filter_emits {c : Chain} (hc : c ∈ chains) {id : NodeId} (hid : emits g id = true) :
    (c.nodes.filter (emits g)).getLast? = some id ↔ c.nodes.getLast? = some id := by
  have hnodes := (h.traced c hc).nodes_eq
  have htail : c.nodes.tail.filter (emits g) = c.nodes.tail :=
    List.filter_eq_self.2 fun x hx => h.emits_of_mem_tail hc hx
  rw [hnodes, List.filter_cons, htail]
  cases hrest : c.nodes.tail with
  | cons x rest => split <;> simp [List.getLast?_cons_cons]
  | nil =>
      by_cases hfirst : emits g c.first = true
      · simp [hfirst]
      · rw [if_neg hfirst]
        constructor
        · intro hnone
          cases hnone
        · intro hlast
          obtain rfl : c.first = id := by simpa using hlast
          exact absurd hid hfirst

end Covers

end SeaOfNodes.Listing
