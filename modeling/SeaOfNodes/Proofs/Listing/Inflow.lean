/-
  SeaOfNodes.Proofs.Listing.Inflow

  Which block control comes to a merge from.  The graph answers edge by edge: an input of
  the merge leaves a node.  The layout of a listing answers block by block: a block flows
  into an input of the merge.  Where the inputs of a merge have different numbers both mean
  the same input, and the node is in the block.
-/
import SeaOfNodes.Proofs.Listing.Numbering

namespace SeaOfNodes.Listing

open Schedule

/-! ## Inputs of a merge -/

/-- The number by which an edge into a merge is told from the others: a plain one counts
    as 0. -/
def inflow (e : Edge) : Int64 := e.role.index.getD 0

/-- The inputs of a merge are told apart by their numbers. -/
def DistinctInflows (g : Graph) (merge : NodeId) : Prop :=
  ((g.inputsWhere merge Role.isControl).map inflow).Nodup

instance (g : Graph) (merge : NodeId) : Decidable (DistinctInflows g merge) :=
  inferInstanceAs (Decidable (List.Nodup _))

theorem distinctInflows_of_find {g : Graph} (h : ∀ merge ∈ g.find .merge, DistinctInflows g merge) {merge : NodeId}
    (hop : g.op merge = .merge) : DistinctInflows g merge :=
  h merge ((Graph.mem_find_iff (by decide)).2 hop)

/-- The predecessor of a merge by a number is looked for among these numbers, unless it is
    the one that stands for none. -/
theorem mergePredecessor?_eq_find (g : Graph) (merge : NodeId) {n : Int64} (hn : n ≠ -1) :
    g.mergePredecessor? merge n
      = ((g.inputsWhere merge Role.isControl).find? fun e => inflow e = n).map Edge.source := by
  have htest : ∀ e : Edge, (e.role.slot = n || (n = 0 && e.role.index.isNone)) = decide (inflow e = n) := by
    intro e
    unfold inflow Role.slot
    cases e.role.index with
    | none => simp [hn.symm, eq_comm]
    | some m => simp
  simp only [Graph.mergePredecessor?, htest]

/-- Where the inputs are told apart, it is the source of the one that has the number. -/
theorem mergePredecessor?_eq_source {g : Graph} {merge : NodeId} (hdistinct : DistinctInflows g merge) {e : Edge}
    (he : e ∈ g.inputsWhere merge Role.isControl) (hne : inflow e ≠ -1) :
    g.mergePredecessor? merge (inflow e) = some e.source := by
  rw [mergePredecessor?_eq_find g merge hne, Option.map_eq_some_iff]
  cases hfind : (g.inputsWhere merge Role.isControl).find? fun other => inflow other = inflow e with
  | none =>
      have hother := List.find?_eq_none.1 hfind e he
      simp at hother
  | some other =>
      have hsame : inflow other = inflow e := by simpa using List.find?_some hfind
      have heq : other = e := List.inj_on_of_nodup_map hdistinct (List.mem_of_find?_eq_some hfind) he hsame
      exact ⟨other, rfl, by rw [heq]⟩

theorem mergeInput_eq_ok {g : Graph} {c : Chain} {merge : NodeId} {n : Int64} (h : mergeInput g c merge = .ok n) :
    ∃ e ∈ g.inputsWhere merge Role.isControl, e.source ∈ c.nodes ∧ inflow e = n := by
  unfold mergeInput at h
  split at h
  · rename_i e hfind
    have hsource : c.nodes.contains e.source = true := by simpa using List.find?_some hfind
    exact ⟨e, List.mem_of_find?_eq_some hfind, by simpa using hsource, Except.ok.inj h⟩
  · cases h

/-! ## Blocks of a plan -/

namespace Planned

variable {s : Graph} {order : NodeId → List NodeId} {chains : List Chain} {layout : Layout}
  (h : Planned s order chains layout)
include h

/-- A node that begins a block has its index. -/
theorem exists_index {first : NodeId} (hfirst : first ∈ blockFirsts s) :
    ∃ b c, layout.index.lookup first = some b ∧ chains[b]? = some c ∧ c.first = first := by
  rw [← h.firsts.mem_iff] at hfirst
  obtain ⟨c, hc, rfl⟩ := List.mem_map.1 hfirst
  obtain ⟨b, hb⟩ := List.mem_iff_getElem?.1 hc
  exact ⟨b, c, (h.index b c.first).2 ⟨c, hb, rfl⟩, hb, rfl⟩

/-- What the layout notes as flowing into an input of a merge is a block that ends at the
    merge. -/
theorem exists_flow {merge first : NodeId} {n : Int64} (hincoming : layout.incoming.lookup (merge, n) = some first) :
    ∃ c ∈ chains, c.first = first ∧ c.merge? = some merge ∧ mergeInput s c merge = .ok n := by
  have hmem : ((merge, n), first) ∈ layout.incoming := by
    obtain ⟨l, l', hsplit, -⟩ := List.lookup_eq_some_iff.1 hincoming
    rw [hsplit]
    simp
  rw [h.incoming, List.mem_reverse] at hmem
  obtain ⟨c, hc, hflow⟩ := List.mem_flatMap.1 hmem
  unfold flowOf at hflow
  split at hflow
  · cases hflow
  · rename_i merge' hends
    split at hflow
    · rename_i m hm
      obtain ⟨hkey, rfl⟩ := Prod.mk.inj (List.mem_singleton.1 hflow)
      obtain ⟨rfl, rfl⟩ := Prod.mk.inj hkey
      exact ⟨c, hc, rfl, hends, hm⟩
    · cases hflow

/-- A phi is in the block of its merge. -/
theorem phi_home (hs : Scheduled s order) {id merge : NodeId} (hphi : s.op id = .phi)
    (hmerge : s.phiMerge? id = some merge) :
    ∃ b c, layout.index.lookup merge = some b ∧ chains[b]? = some c ∧ c.first = merge ∧ id ∈ c.nodes := by
  have hpred : merge ∈ s.controlPredecessors id := List.mem_of_find?_eq_some hmerge
  have hop : s.op merge = .merge := by simpa using List.find?_some hmerge
  have hsucc := hs.consistent.mem_controlPredecessors.1 hpred
  have hlive : s.has merge = true := Graph.has_of_op_ne_invalid (by rw [hop]; exact fun hne => by cases hne)
  have hfirst : merge ∈ blockFirsts s := mem_blockFirsts.2 ⟨hlive, by simp [Graph.beginsBlock, hop]⟩
  obtain ⟨b, c, hb, hc, rfl⟩ := h.exists_index hfirst
  -- Control goes from the merge to the phi, and no merge stands between them.
  have hstep : id ∈ blockNeighbours s c.first c.first := by
    obtain ⟨e, he, rfl⟩ := List.mem_map.1 hsucc
    have hsource : e.source = c.first := hs.consistent.source_eq c.first e (List.mem_of_mem_filter he)
    rw [blockNeighbours, if_neg (by simp [isOtherMerge_self])]
    refine List.mem_append_right _ ?_
    rw [if_neg (by simp [hop])]
    refine List.mem_map.2 ⟨e, List.mem_filter.2 ⟨he, ?_⟩, rfl⟩
    simp [staysInBlock, hsource, hop]
  have hmem : id ∈ blockMembers s c.first :=
    mem_blockMembers.2 ⟨Graph.has_of_op_ne_invalid (by rw [hphi]; exact fun hne => by cases hne), .single hstep⟩
  have hown : isOtherMerge s c.first id = false := by simp [isOtherMerge, hphi]
  exact ⟨b, c, hb, hc, rfl, ((h.chainOf c (List.mem_of_getElem? hc)).mem_nodes_iff hs).2 ⟨hmem, hown⟩⟩

end Planned

end SeaOfNodes.Listing
