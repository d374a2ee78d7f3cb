/-
  SeaOfNodes.Proofs.Listing.Causes

  What linearization may find wrong with a scheduled graph.  The chains can be followed to
  their ends, no two of them share a node, and each flows into its merge by a control edge:
  scheduling has seen to that.  So a node without a block, a graph without a return, an end
  without a transfer and an operand without a register or a predecessor are all that is
  left to report.
-/
import SeaOfNodes.Proofs.Listing.Coverage
import SeaOfNodes.Proofs.Listing.Operands
import SeaOfNodes.Proofs.Listing.Shape

namespace SeaOfNodes.Listing

open Schedule

/-- The causes for which a graph may turn out to have no listing.  A node that is not
    scheduled is in no block. -/
def Error.Expected (s : Graph) : Error → Prop
  | .notScheduled (.unreached label) =>
    ∃ id, s.has id = true ∧ label = s.label id ∧ ∀ first ∈ blockFirsts s, id ∉ blockMembers s first
  | .notScheduled _ => False
  | .unresolvedBlock _ => False
  | .unresolvedPhi (.noControlEdge _ _) => False
  | _ => True

/-- A register that is missed is that of a value which an instruction writes or reads, and
    the node has none. -/
def BadOperand.Founded (g : Graph) : BadOperand → Prop
  | .noDestination label =>
    ∃ id, g.has id = true ∧ g.producesValue id = true ∧ label = g.label id ∧ (g.props id).int? Props.register = none
  | .noRegister label =>
    ∃ id, ∃ e ∈ g.inputs id, e.role.isValue = true ∧ label = g.label e.source ∧
      (g.props e.source).int? Props.register = none
  | _ => True

/-- An expected cause that is also founded in the graph with its registers. -/
def Error.Founded (s out : Graph) : Error → Prop
  | .badOperand cause => cause.Founded out
  | cause => cause.Expected s

/-- An expected cause that shows before any instruction is emitted. -/
def Error.Early (s : Graph) (cause : Error) : Prop := cause.Expected s ∧ ∀ operand, cause ≠ .badOperand operand

theorem Error.Early.founded {s : Graph} {cause : Error} (h : cause.Early s) (out : Graph) : cause.Founded s out := by
  obtain ⟨hexpected, hoperand⟩ := h
  cases cause with
  | badOperand operand => exact absurd rfl (hoperand operand)
  | _ => exact hexpected

theorem Error.Founded.expected {s out : Graph} {cause : Error} (h : cause.Founded s out) : cause.Expected s := by
  cases cause with
  | badOperand _ => trivial
  | _ => exact h

/-! ## Chains -/

/-- A block has no more nodes than the graph. -/
theorem length_blockMembers_le (g : Graph) (first : NodeId) : (blockMembers g first).length ≤ g.size := by
  rw [Graph.size_eq_length_ids]
  exact List.length_filter_le _ _

/-- The order of a block can be followed to its end. -/
theorem exists_followChain {s : Graph} {order : NodeId → List NodeId} (hs : Scheduled s order) {first : NodeId}
    (hfirst : first ∈ blockFirsts s) {before after : List NodeId} {id : NodeId} {steps : Nat}
    (hsplit : first :: order first = before ++ id :: after) (hown : isOtherMerge s first id = false)
    (hsteps : after.length < steps) : ∃ walk, followChain s first steps id = .ok walk := by
  induction after generalizing before id steps with
  | nil =>
      obtain ⟨rest, rfl⟩ := Nat.exists_eq_succ_of_ne_zero (Nat.ne_zero_of_lt hsteps)
      rw [followChain, hs.outputsNamed_of_last hfirst hsplit hown]
      exact ⟨_, rfl⟩
  | cons next after ih =>
      obtain ⟨rest, rfl⟩ := Nat.exists_eq_succ_of_ne_zero (Nat.ne_zero_of_lt hsteps)
      rw [followChain, hs.outputsNamed_of_split hfirst hsplit]
      by_cases hmerge : s.op (chainEdge id next).target = .merge
      · simp only [if_pos hmerge]
        exact ⟨_, rfl⟩
      · simp only [if_neg hmerge]
        have hnext : first :: order first = (before ++ [id]) ++ next :: after := by
          rw [hsplit]
          simp
        have hnextOwn : isOtherMerge s first next = false := by
          change ¬ s.op next = .merge at hmerge
          simp [isOtherMerge, hmerge]
        obtain ⟨walk, hwalk⟩ := ih hnext hnextOwn (Nat.lt_of_succ_lt_succ hsteps)
        exact ⟨_, map_eq_ok.2 ⟨walk, hwalk, rfl⟩⟩

theorem exists_collectChains {s : Graph} {order : NodeId → List NodeId} (hs : Scheduled s order) :
    ∃ chains, collectChains s = .ok chains := by
  apply mapM_succeeds
  intro first hfirst
  have hlength := ((hs.block first hfirst).perm_blockMembers hfirst).length_eq
  have hsize := length_blockMembers_le s first
  rw [List.length_cons] at hlength
  obtain ⟨walk, hwalk⟩ := exists_followChain hs hfirst (List.nil_append _).symm (isOtherMerge_self s first)
    (show (order first).length < s.size by omega)
  exact ⟨_, map_eq_ok.2 ⟨walk, hwalk, rfl⟩⟩

/-- Chains that share a node begin with the same one. -/
theorem ChainOf.first_eq_of_mem {s : Graph} {order : NodeId → List NodeId} {c d : Chain} (hc : ChainOf s order c)
    (hd : ChainOf s order d) (hs : Scheduled s order) {id : NodeId} (hid : id ∈ c.nodes) (hid' : id ∈ d.nodes) :
    c.first = d.first := by
  obtain ⟨hmem, hown⟩ := (hc.mem_nodes_iff hs).1 hid
  obtain ⟨hmem', hown'⟩ := (hd.mem_nodes_iff hs).1 hid'
  exact hs.eq_of_mem_blockMembers hc.first_mem hd.first_mem hmem hmem' hown hown'

/-! ## Coverage -/

/-- Nodes that are noted for the first time are all noted. -/
theorem exists_coverNodes (g : Graph) (first : NodeId) {nodes : List NodeId} {seen : List (NodeId × NodeId)}
    (h : (nodes ++ seen.map Prod.fst).Nodup) : ∃ seen', coverNodes g first seen nodes = .ok seen' := by
  induction nodes generalizing seen with
  | nil => exact ⟨seen, rfl⟩
  | cons id rest ih =>
      have hfresh : seen.lookup id = none := by
        have hnot : id ∉ seen.map Prod.fst := by
          rw [List.cons_append, List.nodup_cons, List.mem_append, not_or] at h
          exact h.1.2
        cases hlookup : seen.lookup id with
        | none => rfl
        | some owner =>
            obtain ⟨front, back, rfl, -⟩ := List.lookup_eq_some_iff.1 hlookup
            simp at hnot
      rw [coverNodes, hfresh]
      apply ih
      rw [List.map_cons, List.nodup_middle]
      exact h

theorem exists_foldlM_coverNodes (g : Graph) {chains : List Chain} {seen : List (NodeId × NodeId)}
    (h : (chains.flatMap Chain.nodes ++ seen.map Prod.fst).Nodup) :
    ∃ seen', chains.foldlM (fun seen c => coverNodes g c.first seen c.nodes) seen = .ok seen' := by
  induction chains generalizing seen with
  | nil => exact ⟨seen, rfl⟩
  | cons c rest ih =>
      have hperm : (rest.flatMap Chain.nodes ++ (c.nodes.reverse ++ seen.map Prod.fst)).Perm
          ((c :: rest).flatMap Chain.nodes ++ seen.map Prod.fst) := by
        rw [List.flatMap_cons, List.append_assoc]
        refine List.perm_append_comm_assoc _ _ _ |>.trans ?_
        exact (List.reverse_perm c.nodes).append_right _
      have hnodup := hperm.nodup_iff.2 h
      have hown : (c.nodes ++ seen.map Prod.fst).Nodup := by
        have hpart := (List.nodup_append.1 hnodup).2.1
        exact ((List.reverse_perm c.nodes).append_right _).nodup_iff.1 hpart
      obtain ⟨next, hnext⟩ := exists_coverNodes g c.first hown
      have hseen : (seen.map Prod.fst).Nodup := (List.nodup_append.1 hown).2.1
      rw [List.foldlM_cons, hnext]
      apply ih
      rw [(coverNodes_eq_ok hnext hseen).1]
      exact hnodup

/-- The chains that are read off a scheduled graph. -/
structure Collected (s : Graph) (order : NodeId → List NodeId) (chains : List Chain) : Prop where
  scheduled : Scheduled s order
  firsts : chains.map Chain.first = blockFirsts s
  chainOf : ∀ c ∈ chains, ChainOf s order c

theorem collected_of_collectChains {s : Graph} {order : NodeId → List NodeId} (hs : Scheduled s order)
    {chains : List Chain} (h : collectChains s = .ok chains) : Collected s order chains := by
  obtain ⟨hfirsts, hchains⟩ := collectChains_eq_ok hs h
  exact ⟨hs, hfirsts, fun c hc => (hchains c hc).1⟩

namespace Collected

variable {s : Graph} {order : NodeId → List NodeId} {chains : List Chain} (h : Collected s order chains)
include h

theorem nodup_nodes : (chains.flatMap Chain.nodes).Nodup := by
  refine List.nodup_flatMap.2 ⟨fun c hc => (h.chainOf c hc).nodup_nodes h.scheduled, ?_⟩
  have hfirsts : chains.Pairwise fun c d => c.first ≠ d.first := by
    rw [← List.pairwise_map, h.firsts]
    exact nodup_blockFirsts s
  refine hfirsts.imp_of_mem fun {c d} hc hd hne id hid hid' => ?_
  exact hne ((h.chainOf c hc).first_eq_of_mem (h.chainOf d hd) h.scheduled hid hid')

/-- A node of a block is on a chain: if it is the merge that ends the block, on its own. -/
theorem mem_nodes_of_mem_blockMembers {first id : NodeId} (hfirst : first ∈ blockFirsts s)
    (hid : id ∈ blockMembers s first) : id ∈ chains.flatMap Chain.nodes := by
  have hon : ∀ owner ∈ blockFirsts s, id ∈ blockMembers s owner → isOtherMerge s owner id = false →
      id ∈ chains.flatMap Chain.nodes := by
    intro owner howner hmem hown
    rw [← h.firsts] at howner
    obtain ⟨c, hc, rfl⟩ := List.mem_map.1 howner
    exact List.mem_flatMap.2 ⟨c, hc, ((h.chainOf c hc).mem_nodes_iff h.scheduled).2 ⟨hmem, hown⟩⟩
  cases hown : isOtherMerge s first id with
  | false => exact hon first hfirst hid hown
  | true =>
      have hop : s.op id = .merge := by
        simp only [isOtherMerge, Bool.and_eq_true, decide_eq_true_eq] at hown
        exact hown.2
      have hself : id ∈ blockFirsts s := mem_blockFirsts.2
        ⟨(mem_blockMembers.1 hid).1, by simp [Graph.beginsBlock, hop]⟩
      exact hon id hself (first_mem_blockMembers hself) (isOtherMerge_self s id)

/-- Only a node that is in no block is missed. -/
theorem checkCoverage_eq_error {cause : Error} (hfails : checkCoverage s chains = .error cause) :
    ∃ id, s.has id = true ∧ cause = .notScheduled (.unreached (s.label id)) ∧
      ∀ first ∈ blockFirsts s, id ∉ blockMembers s first := by
  have hfresh : (chains.flatMap Chain.nodes ++ ([] : List (NodeId × NodeId)).map Prod.fst).Nodup := by
    rw [List.map_nil, List.append_nil]
    exact h.nodup_nodes
  obtain ⟨seen, hseen⟩ := exists_foldlM_coverNodes s hfresh
  obtain ⟨hkeys, hnodup⟩ := foldlM_coverNodes_eq_ok hseen (by simp)
  rw [checkCoverage, hseen] at hfails
  rcases bind_eq_error.1 hfails with hfails | ⟨_, hsame, hfails⟩
  · cases hfails
  · cases hsame
    split at hfails
    · rename_i id hfind
      cases hfails
      refine ⟨id, Graph.mem_ids.1 (List.mem_of_find?_eq_some hfind), rfl, fun first hfirst hid => ?_⟩
      have hmem := h.mem_nodes_of_mem_blockMembers hfirst hid
      rw [List.map_nil, List.append_nil] at hkeys
      rw [← List.mem_reverse, ← hkeys] at hmem
      obtain ⟨⟨key, owner⟩, hentry, rfl⟩ := List.mem_map.1 hmem
      have hnone := List.find?_some hfind
      rw [(lookup_eq_some_iff_mem hnodup).2 hentry] at hnone
      cases hnone
    · cases hfails

theorem checkCoverage_failsOnly : FailsOnly (Error.Early s) (checkCoverage s chains) := by
  intro cause hfails
  obtain ⟨id, hid, rfl, hnone⟩ := h.checkCoverage_eq_error hfails
  exact ⟨⟨id, hid, rfl, hnone⟩, by simp⟩

end Collected

/-! ## The layout -/

/-- A block flows into the merge that ends it by a control edge. -/
theorem ChainOf.exists_mergeInput {s : Graph} {order : NodeId → List NodeId} {c : Chain} (hc : ChainOf s order c)
    (hs : Scheduled s order) {merge : NodeId} (hmerge : c.merge? = some merge) :
    ∃ n, mergeInput s c merge = .ok n := by
  have hother := hc.merge merge hmerge
  obtain ⟨hne, hop⟩ : merge ≠ c.first ∧ s.op merge = .merge := by
    simpa [isOtherMerge] using hother
  have hmem : merge ∈ blockMembers s c.first := by
    rw [hs.mem_blockMembers_iff hc.first_mem, ← hc.nodes_append, hmerge]
    simp
  -- The merge is no first node, so it is in the block because of another one.
  obtain ⟨id, hid, hnext⟩ : ∃ id, InBlock s c.first id ∧ merge ∈ blockNeighbours s c.first id := by
    rcases Relation.ReflTransGen.cases_tail (mem_blockMembers.1 hmem).2 with heq | hstep
    · exact absurd heq hne
    · exact hstep
  obtain ⟨hown, ⟨e, he, rfl⟩ | ⟨-, hcontrol⟩⟩ := mem_blockNeighbours hnext
  · -- Only what floats is anchored, and a merge is fixed.
    have hfloating := hs.isFixed_of_anchored he
    rw [Graph.isFixed_of_op (by rw [hop]; rfl)] at hfloating
    cases hfloating
  · obtain ⟨e, he, rfl⟩ := List.mem_map.1 hcontrol
    obtain ⟨he, hrole⟩ := List.mem_filter.1 he
    have hsource := hs.consistent.source_eq id e he
    have hon : e.source ∈ c.nodes := by
      rw [hsource, hc.mem_nodes_iff hs]
      exact ⟨mem_blockMembers.2 ⟨Graph.has_of_mem_outputs he, hid⟩, hown⟩
    have hfound : ((s.inputsWhere e.target Role.isControl).find? fun x => c.nodes.contains x.source).isSome = true := by
      rw [List.find?_isSome]
      exact ⟨e, List.mem_filter.2 ⟨hs.consistent.mem_inputs he, hrole⟩, by simpa using hon⟩
    obtain ⟨found, hfind⟩ := Option.isSome_iff_exists.1 hfound
    rw [mergeInput, hfind]
    exact ⟨_, rfl⟩

theorem exists_layoutFrom {g : Graph} {chains : List Chain}
    (h : ∀ c ∈ chains, ∀ merge, c.merge? = some merge → ∃ n, mergeInput g c merge = .ok n) (start : Nat)
    (layout : Layout) : ∃ layout', layoutFrom g start layout chains = .ok layout' := by
  induction chains generalizing start layout with
  | nil => exact ⟨layout, rfl⟩
  | cons c rest ih =>
      have hrest := ih fun d hd => h d (List.mem_cons_of_mem c hd)
      rw [layoutFrom]
      cases hmerge : c.merge? with
      | none => exact hrest _ _
      | some merge =>
          obtain ⟨n, hn⟩ := h c List.mem_cons_self merge hmerge
          obtain ⟨layout', hlayout'⟩ := hrest (start + 1) ⟨(c.first, start) :: layout.index,
            ((merge, n), c.first) :: layout.incoming⟩
          exact ⟨layout', bind_eq_ok.2 ⟨n, hn, hlayout'⟩⟩

/-- Chains can be laid out in any order. -/
theorem Collected.exists_layoutOf {s : Graph} {order : NodeId → List NodeId} {chains ordered : List Chain}
    (h : Collected s order chains) (hperm : ordered.Perm chains) : ∃ layout, layoutOf s ordered = .ok layout := by
  refine exists_layoutFrom (fun c hc merge hmerge => ?_) 0 ⟨[], []⟩
  exact (h.chainOf c (hperm.mem_iff.1 hc)).exists_mergeInput h.scheduled hmerge

theorem plan_failsOnly {s : Graph} {order : NodeId → List NodeId} (hs : Scheduled s order) :
    FailsOnly (Error.Early s) (plan s) := by
  obtain ⟨chains, hchains⟩ := exists_collectChains hs
  have hcollected := collected_of_collectChains hs hchains
  rw [plan, hchains]
  refine (hcollected.checkCoverage_failsOnly).bind fun _ _ => .bind ?_ fun ordered hordered => ?_
  · rw [orderChains]
    split
    · exact .error ⟨trivial, by simp⟩
    · exact .ok _
  · obtain ⟨layout, hlayout⟩ := hcollected.exists_layoutOf (orderChains_eq_ok hordered).1
    rw [hlayout]
    exact .ok _

/-! ## Instructions -/

section Emission

variable {s g : Graph}

/-- The register of a value that is read is founded in the edge that reads it. -/
theorem registerOf_failsOnly {id : NodeId} {e : Edge} (he : e ∈ g.inputs id) (hvalue : e.role.isValue = true) :
    FailsOnly (Error.Founded s g) (registerOf g e.source) := by
  unfold registerOf
  split
  · exact .ok _
  · rename_i hnone
    exact .error ⟨id, e, he, hvalue, rfl, hnone⟩

theorem soleInput_failsOnly (id : NodeId) (role : Role) : FailsOnly (Error.Founded s g) (soleInput g id role) := by
  unfold soleInput
  split
  · exact .ok _
  · exact .error trivial

theorem soleOutput_failsOnly (id : NodeId) (name : Role.Name) :
    FailsOnly (Error.Founded s g) (soleOutput g id name) := by
  unfold soleOutput
  split
  · exact .ok _
  · exact .error trivial

theorem destination_failsOnly {id : NodeId} (hid : g.has id = true) :
    FailsOnly (Error.Founded s g) (destination g id) := by
  unfold destination
  split
  · rename_i hvalue
    split
    · exact .ok _
    · rename_i hnone
      exact .error ⟨id, hid, hvalue, rfl, hnone⟩
  · exact .ok _

/-- An input that has to be the only one of its role, and has a value. -/
theorem registerOf_soleInput_failsOnly {id source : NodeId} {role : Role} (hvalue : role.isValue = true)
    (h : soleInput g id role = .ok source) : FailsOnly (Error.Founded s g) (registerOf g source) := by
  obtain ⟨e, -, he, rfl, rfl⟩ := soleInput_eq_ok h
  exact registerOf_failsOnly he hvalue

theorem registerOf_operand_failsOnly {id : NodeId} {e : Edge} (he : e ∈ operandEdges g id) :
    FailsOnly (Error.Founded s g) (registerOf g e.source) := by
  obtain ⟨he, hname⟩ := mem_operandEdges.1 he
  exact registerOf_failsOnly he (by rw [Role.isValue, hname]; rfl)

theorem phiOperands_failsOnly (id : NodeId) : FailsOnly (Error.Founded s g) (phiOperands g id) := by
  unfold phiOperands
  split
  · exact .error trivial
  · refine (FailsOnly.mapM fun e he => ?_).bind fun _ _ => .ok _
    unfold phiPair
    split
    · exact .error trivial
    · exact (registerOf_operand_failsOnly he).bind fun _ _ => .ok _

theorem branchOperands_failsOnly (id : NodeId) : FailsOnly (Error.Founded s g) (branchOperands g id) := by
  refine (soleInput_failsOnly id .condition).bind fun condition hcondition => ?_
  refine (registerOf_soleInput_failsOnly rfl hcondition).bind fun _ _ => ?_
  refine (soleOutput_failsOnly id .ifTrue).bind fun _ _ => ?_
  exact (soleOutput_failsOnly id .ifFalse).bind fun _ _ => .ok _

theorem sendOperands_failsOnly (id : NodeId) : FailsOnly (Error.Founded s g) (sendOperands g id) := by
  refine (soleInput_failsOnly id .receiver).bind fun source hsource => ?_
  refine (registerOf_soleInput_failsOnly rfl hsource).bind fun _ _ => ?_
  have hargs : ∀ n, FailsOnly (Error.Founded s g) (argumentRef g id n) := fun n =>
    (soleInput_failsOnly id (.arg (Int64.ofNat n))).bind fun arg harg =>
      (registerOf_soleInput_failsOnly rfl harg).bind fun _ _ => .ok _
  split
  · exact (FailsOnly.mapM fun n _ => hargs n).bind fun _ _ => .ok _
  · exact .error trivial

theorem emitNode_failsOnly {id : NodeId} (hid : g.has id = true) :
    FailsOnly (Error.Founded s g) (emitNode g id) := by
  refine (destination_failsOnly hid).bind fun _ _ => ?_
  split
  · exact (phiOperands_failsOnly id).bind fun _ _ => .ok _
  · refine (FailsOnly.mapM fun e he => registerOf_operand_failsOnly he).bind fun _ _ => ?_
    split
    · exact (branchOperands_failsOnly id).bind fun _ _ => .ok _
    · split
      · exact (sendOperands_failsOnly id).bind fun _ _ => .ok _
      · exact .ok _

theorem emitChain_failsOnly {c : Chain} (hlive : ∀ id ∈ c.nodes, g.has id = true) :
    FailsOnly (Error.Founded s g) (emitChain g c) := by
  refine (FailsOnly.mapM fun id hid => ?_).bind fun _ _ => ?_
  · exact emitNode_failsOnly (hlive id (List.mem_of_mem_filter hid))
  · split
    · exact .ok _
    · split
      · exact .error trivial
      · exact .ok _

end Emission

/-- A draft is that of a node, or the jump that ends a block. -/
theorem mem_drafts {g : Graph} {c : Chain} {drafts : List Draft} (h : emitChain g c = .ok drafts) {d : Draft}
    (hd : d ∈ drafts) : (∃ id ∈ c.nodes, emitNode g id = .ok d) ∨
      ∃ merge, c.merge? = some merge ∧ d = ⟨jumpOp, noRegister, [], [], [.entry merge]⟩ := by
  rw [emitChain] at h
  obtain ⟨body, hbody, h⟩ := bind_eq_ok.1 h
  have hnode : d ∈ body → ∃ id ∈ c.nodes, emitNode g id = .ok d := by
    intro hmem
    obtain ⟨id, hid, hemit⟩ := forall₂_mem_right (mapM_eq_ok.1 hbody) hmem
    exact ⟨id, List.mem_of_mem_filter hid, hemit⟩
  split at h
  · cases h
    exact .inl (hnode hd)
  · split at h
    · cases h
    · rename_i merge hmerge
      cases h
      rcases List.mem_append.1 hd with hd | hd
      · exact .inl (hnode hd)
      · exact .inr ⟨merge, hmerge, List.mem_singleton.1 hd⟩

/-- A transfer has the operands that simplifying its block looks at. -/
def Complete (d : Draft) : Prop := (d.op = jumpOp → d.trailing ≠ []) ∧ (d.op = branchOp → 3 ≤ d.trailing.length)

/-- Every transfer is emitted with its operands. -/
theorem complete_of_emitChain {g : Graph} {c : Chain} {drafts : List Draft} (h : emitChain g c = .ok drafts) :
    ∀ d ∈ drafts, Complete d := by
  intro d hd
  rcases mem_drafts h hd with ⟨id, -, hemit⟩ | ⟨merge, -, rfl⟩
  · have hdraft := emitNode_eq_ok hemit
    have hop := hdraft.op
    constructor
    · intro hjump
      exact absurd (by simp [transferOps, ← hop, hjump]) (opcode_notMem_transferOps (g.op id))
    · intro hbranch
      rw [hop, opcode_eq_branch] at hbranch
      obtain ⟨ways, hrefs⟩ := branchOperands_eq_ok (hdraft.branch hbranch)
      rw [hrefs]
      simp
  · exact ⟨fun _ => List.cons_ne_nil _ _, fun hbranch => absurd hbranch (show jumpOp ≠ branchOp by decide)⟩

/-! ## References to blocks -/

/-- The target of an outcome of a branch begins a block. -/
theorem mem_blockFirsts_of_soleOutput {g : Graph} (hg : g.Consistent) {id target : NodeId} {name : Role.Name}
    (hname : name = .ifTrue ∨ name = .ifFalse) (h : soleOutput g id name = .ok target) :
    target ∈ blockFirsts g := by
  obtain ⟨e, he, hrole, rfl⟩ := soleOutput_eq_ok h
  refine mem_blockFirsts.2 ⟨hg.has_target he, ?_⟩
  have hany : (g.inputs e.target).any (fun e => e.role.name = .ifTrue || e.role.name = .ifFalse) = true := by
    refine List.any_eq_true.2 ⟨e, hg.mem_inputs he, ?_⟩
    rw [hrole]
    rcases hname with rfl | rfl <;> rfl
  rw [Graph.beginsBlock, hany, Bool.or_true]

/-- A phi names no block by a node that begins it, only by the inputs of its merge. -/
theorem not_mem_phiOperands {g : Graph} {id node : NodeId} {refs : List Ref} (h : phiOperands g id = .ok refs) :
    .entry node ∉ refs := by
  intro hnode
  unfold phiOperands at h
  split at h
  · cases h
  · rename_i merge _
    obtain ⟨pairs, hpairs, hflat⟩ := bind_eq_ok.1 h
    rw [← pure_eq_ok.1 hflat] at hnode
    obtain ⟨pair, hpair, hnode⟩ := List.mem_flatten.1 hnode
    obtain ⟨e, -, he⟩ := forall₂_mem_right (mapM_eq_ok.1 hpairs) hpair
    unfold phiPair at he
    split at he
    · cases he
    · obtain ⟨r, -, he⟩ := bind_eq_ok.1 he
      cases he
      simp at hnode

/-- A send names no block. -/
theorem not_mem_sendOperands {g : Graph} {id node : NodeId} {refs : List Ref} (h : sendOperands g id = .ok refs) :
    .entry node ∉ refs := by
  intro hnode
  obtain ⟨source, receiver, name, args, -, -, hargs, rfl⟩ := sendOperands_eq_ok h
  simp only [List.mem_cons, reduceCtorEq, false_or] at hnode
  obtain ⟨n, -, harg⟩ := forall₂_mem_right hargs hnode
  obtain ⟨arg, -, harg⟩ := bind_eq_ok.1 harg
  obtain ⟨r, -, harg⟩ := bind_eq_ok.1 harg
  cases harg

/-- The nodes that the operands of a node name as blocks begin blocks: only a branch names
    any. -/
theorem mem_blockFirsts_of_emitNode {g : Graph} (hg : g.Consistent) {id node : NodeId} {d : Draft}
    (h : emitNode g id = .ok d) (hnode : .entry node ∈ d.trailing) : node ∈ blockFirsts g := by
  have hdraft := emitNode_eq_ok h
  by_cases hphi : g.op id = .phi
  · exact absurd hnode (not_mem_phiOperands (hdraft.phi hphi).2)
  by_cases hsend : g.op id = .send
  · exact absurd hnode (not_mem_sendOperands (hdraft.send hsend))
  by_cases hbranch : g.op id = .branch
  · obtain ⟨ways, hrefs⟩ := branchOperands_eq_ok (hdraft.branch hbranch)
    rw [hrefs] at hnode
    simp only [List.mem_cons, List.not_mem_nil, or_false, reduceCtorEq, false_or, Ref.entry.injEq] at hnode
    rcases hnode with rfl | rfl
    · exact mem_blockFirsts_of_soleOutput hg (.inl rfl) ways.ifTrue_eq
    · exact mem_blockFirsts_of_soleOutput hg (.inr rfl) ways.ifFalse_eq
  · rw [hdraft.plain hphi hbranch hsend] at hnode
    cases hnode

/-- So do those that the instructions of a chain name. -/
theorem mem_blockFirsts_of_emitChain {s out : Graph} {order : NodeId → List NodeId} (hs : Scheduled s order)
    (hagree : Graph.Agree (fun _ => true) s out) {c : Chain} (hc : ChainOf s order c) {drafts : List Draft}
    (h : emitChain out c = .ok drafts) {d : Draft} (hd : d ∈ drafts) {node : NodeId}
    (hnode : .entry node ∈ d.trailing) : node ∈ blockFirsts s := by
  have hprogram : Graph.SameProgram s out := hagree.sameProgram
  rcases mem_drafts h hd with ⟨id, -, hemit⟩ | ⟨merge, hmerge, rfl⟩
  · have hout : out.Consistent := hs.consistent.congr hagree.inputs_eq hagree.outputs_eq
    have hfirst := mem_blockFirsts_of_emitNode hout hemit hnode
    rw [blockFirsts, hprogram.filter_beginsBlock] at hfirst
    exact hfirst
  · obtain rfl : node = merge := by simpa using hnode
    have hother := hc.merge node hmerge
    simp only [isOtherMerge, Bool.and_eq_true, decide_eq_true_eq] at hother
    exact mem_blockFirsts.2 ⟨Graph.has_of_op_ne_invalid (by rw [hother.2]; decide),
      by simp [Graph.beginsBlock, hother.2]⟩

namespace Planned

variable {s : Graph} {order : NodeId → List NodeId} {chains : List Chain} {layout : Layout}
  (h : Planned s order chains layout)
include h

/-- Every block has its place in the layout. -/
theorem exists_blockOf {first : NodeId} (hfirst : first ∈ blockFirsts s) :
    ∃ operand, layout.blockOf first = .ok operand := by
  rw [← h.firsts.mem_iff] at hfirst
  obtain ⟨c, hc, rfl⟩ := List.mem_map.1 hfirst
  obtain ⟨i, hi⟩ := List.mem_iff_getElem?.1 hc
  rw [Layout.blockOf, (h.index i c.first).2 ⟨c, hi, rfl⟩]
  exact ⟨_, rfl⟩

/-- What flows into a merge is a block. -/
theorem mem_blockFirsts_of_incoming {merge first : NodeId} {n : Int64}
    (hincoming : layout.incoming.lookup (merge, n) = some first) : first ∈ blockFirsts s := by
  obtain ⟨front, back, hsplit, -⟩ := List.lookup_eq_some_iff.1 hincoming
  have hmem : ((merge, n), first) ∈ (chains.flatMap (flowOf s)).reverse := by
    rw [← h.incoming, hsplit]
    simp
  obtain ⟨c, hc, hflow⟩ := List.mem_flatMap.1 (List.mem_reverse.1 hmem)
  have hfirst : first = c.first := by
    unfold flowOf at hflow
    split at hflow
    · cases hflow
    · split at hflow
      · cases List.mem_singleton.1 hflow
        rfl
      · cases hflow
  rw [hfirst]
  exact (h.chainOf c hc).first_mem

/-- An operand is not resolved only if it names an input of a merge that no block flows
    into. -/
theorem resolve_failsOnly (out : Graph) {ref : Ref} (href : ∀ node, ref = .entry node → node ∈ blockFirsts s) :
    FailsOnly (Error.Founded s out) (layout.resolve ref) := by
  cases ref with
  | register r => exact .ok _
  | selector name => exact .ok _
  | entry node =>
      obtain ⟨operand, hoperand⟩ := h.exists_blockOf (href node rfl)
      rw [Layout.resolve, hoperand]
      exact .ok _
  | incoming merge n =>
      rw [Layout.resolve]
      split
      · rename_i first hfirst
        obtain ⟨operand, hoperand⟩ := h.exists_blockOf (h.mem_blockFirsts_of_incoming hfirst)
        rw [hoperand]
        exact .ok _
      · exact .error trivial

theorem emitBlocks_failsOnly (hs : Scheduled s order) :
    FailsOnly (Error.Founded s (assignRegisters s chains)) (emitBlocks (assignRegisters s chains) chains layout) := by
  have hagree := agree_assignRegisters s chains
  refine (FailsOnly.mapM fun c hc => emitChain_failsOnly fun id hid => ?_).bind fun drafts hdrafts => ?_
  · rw [hagree.has]
    exact (mem_blockMembers.1 (((h.chainOf c hc).mem_nodes_iff hs).1 hid).1).1
  · refine (FailsOnly.mapM fun block hblock => .mapM fun d hd => ?_).bind fun _ _ => .ok _
    obtain ⟨c, hc, hemit⟩ := forall₂_mem_right (mapM_eq_ok.1 hdrafts) hblock
    refine (FailsOnly.mapM fun ref href => h.resolve_failsOnly _ ?_).bind fun _ _ => .ok _
    rintro node rfl
    exact mem_blockFirsts_of_emitChain hs hagree (h.chainOf c hc) hemit hd href

end Planned

/-- A scheduled graph has a listing, or lacks one for one of the causes above. -/
theorem linearize_founded {s : Graph} {order : NodeId → List NodeId} (hs : Scheduled s order) :
    FailsOnly (Error.Founded s (linearize s).state) (linearize s).result := by
  have hplan := plan_failsOnly hs
  rw [linearize]
  cases hcase : plan s with
  | error cause => exact .error ((hplan cause hcase).founded s)
  | ok planned =>
      obtain ⟨chains, layout⟩ := planned
      exact (planned_of_plan hs hcase).emitBlocks_failsOnly hs

theorem linearize_failsOnly {s : Graph} {order : NodeId → List NodeId} (hs : Scheduled s order) :
    FailsOnly (Error.Expected s) (linearize s).result :=
  fun cause hcause => (linearize_founded hs cause hcause).expected

end SeaOfNodes.Listing
