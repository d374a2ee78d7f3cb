/-
  SeaOfNodes.Proofs.Listing.Success

  When a scheduled graph has a listing.  Every node has to be in a block, some block has to
  return, and each has to end with a transfer or at a merge.  Branches, sends and phis need
  their operands, those of a phi by blocks that flow into its merge.  No more is asked for
  if values carry no registers yet, as each node is given its own.
-/
import SeaOfNodes.Proofs.Graph.Multiplicity
import SeaOfNodes.Proofs.Listing.Causes
import SeaOfNodes.Proofs.Listing.PhiPredecessors
import SeaOfNodes.Proofs.Schedule.BlockClosure

namespace SeaOfNodes.Listing

open Schedule

/-! ## What a listing asks for -/

/-- A node belongs to a block, and does not begin the next one. -/
def Holds (g : Graph) (first id : NodeId) : Prop := InBlock g first id ∧ isOtherMerge g first id = false

/-- A block flows into a merge by an edge, the first into the merge that leaves the block. -/
structure Joins (g : Graph) (first merge : NodeId) (e : Edge) : Prop where
  begins : first ∈ blockFirsts g
  into : InBlock g first merge
  other : isOtherMerge g first merge = true
  holds : Holds g first e.source
  earliest : ∃ before after, g.inputsWhere merge Role.isControl = before ++ e :: after ∧
    ∀ x ∈ before, ¬ Holds g first x.source

/-- Each operand of a phi comes by a block that flows into the merge. -/
def Fed (g : Graph) (phi : NodeId) : Prop :=
  ∃ merge, g.phiMerge? phi = some merge ∧ ∀ e ∈ g.inputsNamed phi .value,
    ∃ n first x, e.role.index = some n ∧ Joins g first merge x ∧ inflow x = n

/-- A branch or a send has the inputs and outputs that its instruction names, each only
    once. -/
structure Operable (g : Graph) (id : NodeId) : Prop where
  condition : g.op id = .branch → (g.inputsWhere id (· = .condition)).length = 1
  outcomes : g.op id = .branch → ∀ name, name = .ifTrue ∨ name = .ifFalse → (g.outputsNamed id name).length = 1
  receiver : g.op id = .send → (g.inputsWhere id (· = .receiver)).length = 1
  selector : g.op id = .send → ∃ name, (g.props id).str? Props.selector = some name
  args : g.op id = .send → ∀ n < min (argumentCount g id) ((g.inputsNamed id .arg).length + 1),
    (g.inputsWhere id (· = .arg (Int64.ofNat n))).length = 1

/-- The inputs of some roles that bring values are counted by the roles of all of these. -/
theorem length_inputsWhere_of_isValue {g : Graph} {id : NodeId} {kind : Role → Bool}
    (hkind : ∀ role, kind role = true → role.isValue = true) :
    (g.inputsWhere id kind).length = ((g.inputsWhere id Role.isValue).map Edge.role).countP kind := by
  rw [List.countP_map, List.countP_eq_length_filter, Graph.inputsWhere, Graph.inputsWhere, List.filter_filter]
  refine congrArg List.length (List.filter_congr fun e _ => ?_)
  cases h : kind e.role with
  | false => simp [h]
  | true => simp [h, hkind e.role h]

/-- What a branch or a send needs is told by its properties, by the roles of its operands
    and by the outcomes that it has. -/
theorem Operable.of_roles {g g' : Graph} {id : NodeId} (h : Operable g id) (hop : g'.op id = g.op id)
    (hprops : ∀ key, key = Props.selector ∨ key = Props.argumentCount → (g'.props id).get? key = (g.props id).get? key)
    (hroles : (g'.inputsWhere id Role.isValue).map Edge.role = (g.inputsWhere id Role.isValue).map Edge.role)
    (houtcomes : g.op id = .branch → ∀ name, name = .ifTrue ∨ name = .ifFalse → (g.outputsNamed id name).length = 1 →
      (g'.outputsNamed id name).length = 1) : Operable g' id := by
  have hlength : ∀ {kind : Role → Bool}, (∀ role, kind role = true → role.isValue = true) →
      (g'.inputsWhere id kind).length = (g.inputsWhere id kind).length := fun hkind => by
    rw [length_inputsWhere_of_isValue hkind, hroles, ← length_inputsWhere_of_isValue hkind]
  have hsole : ∀ {role : Role}, role.isValue = true →
      (g'.inputsWhere id (· = role)).length = (g.inputsWhere id (· = role)).length := fun hvalue =>
    hlength fun other hother => by rw [of_decide_eq_true hother, hvalue]
  have hargs : (g'.inputsNamed id .arg).length = (g.inputsNamed id .arg).length :=
    hlength fun role hrole => by rw [Role.isValue, of_decide_eq_true hrole]; rfl
  have hcount : argumentCount g' id = argumentCount g id := by
    rw [argumentCount, argumentCount, Props.int?, Props.int?, hprops _ (.inr rfl), hargs]
  refine ⟨fun hbranch => ?_, fun hbranch name hname => ?_, fun hsend => ?_, fun hsend => ?_, fun hsend n hn => ?_⟩
  · rw [hsole rfl]
    exact h.condition (hop ▸ hbranch)
  · exact houtcomes (hop ▸ hbranch) name hname (h.outcomes (hop ▸ hbranch) name hname)
  · rw [hsole rfl]
    exact h.receiver (hop ▸ hsend)
  · rw [Props.str?, hprops _ (.inl rfl)]
    exact h.selector (hop ▸ hsend)
  · rw [hcount, hargs] at hn
    rw [hsole rfl]
    exact h.args (hop ▸ hsend) n hn

/-- A block is left: by a node that ends it, which is the only one if it begins it. -/
def Left (g : Graph) (first : NodeId) : Prop :=
  ∃ id, InBlock g first id ∧ endsBlock g first id = true ∧ (id = first → ∀ x, InBlock g first x → x = first)

/-- A graph that can be listed once it is scheduled. -/
structure Listable (g : Graph) : Prop where
  covered : ∀ id, g.has id = true → ∃ first ∈ blockFirsts g, InBlock g first id
  returns : ∃ id, g.op id = .finish
  left : ∀ first ∈ blockFirsts g, Left g first
  fed : ∀ id, g.op id = .phi → Fed g id
  operable : ∀ id, Operable g id

/-! ## Chains -/

namespace ChainOf

variable {s : Graph} {order : NodeId → List NodeId} {c : Chain} (hc : ChainOf s order c) (hs : Scheduled s order)
include hc hs

theorem inBlock_iff {id : NodeId} : InBlock s c.first id ↔ id ∈ c.nodes ∨ c.merge? = some id := by
  rw [← mem_blockMembers_iff_inBlock hs.consistent (mem_blockFirsts.1 hc.first_mem).1,
    hs.mem_blockMembers_iff hc.first_mem, ← hc.nodes_append, List.mem_append, Option.mem_toList]

theorem mem_nodes_iff_holds {id : NodeId} : id ∈ c.nodes ↔ Holds s c.first id := by
  rw [hc.mem_nodes_iff hs, Holds, mem_blockMembers_iff_inBlock hs.consistent (mem_blockFirsts.1 hc.first_mem).1]

/-- The merge that is in the block without belonging there ends it. -/
theorem merge?_eq_some_iff {merge : NodeId} :
    c.merge? = some merge ↔ InBlock s c.first merge ∧ isOtherMerge s c.first merge = true := by
  constructor
  · exact fun h => ⟨(hc.inBlock_iff hs).2 (.inr h), hc.merge merge h⟩
  · rintro ⟨hin, hother⟩
    refine ((hc.inBlock_iff hs).1 hin).resolve_left fun hmem => ?_
    rw [hc.own merge hmem] at hother
    cases hother

/-- A block that is left and does not end at a merge ends with a transfer. -/
theorem getLast?_of_left (h : Left s c.first) (hmerge : c.merge? = none) :
    ∃ id, c.nodes.getLast? = some id ∧ (s.op id = .branch ∨ s.op id = .finish) := by
  obtain ⟨id, hin, hends, hsole⟩ := h
  have hmem : id ∈ c.nodes := ((hc.inBlock_iff hs).1 hin).resolve_right (by simp [hmerge])
  have hop : s.op id = .branch ∨ s.op id = .finish := by
    simpa [endsBlock, hc.own id hmem] using hends
  refine ⟨id, ?_, hop⟩
  obtain ⟨before, after, hsplit⟩ := List.append_of_mem hmem
  by_cases hne : id = c.first
  · have hall : ∀ x ∈ c.nodes, x = id := fun x hx => by rw [hne, hsole hne x ((hc.inBlock_iff hs).2 (.inl hx))]
    obtain ⟨last, hlast⟩ : ∃ last, c.nodes.getLast? = some last :=
      Option.isSome_iff_exists.1 (List.getLast?_isSome.2 (List.ne_nil_of_mem hmem))
    rw [hlast, hall last (List.mem_of_getLast? hlast)]
  · obtain ⟨rfl, -⟩ := hc.eq_nil_of_endsBlock hs hsplit hne hop
    rw [hsplit]
    exact List.getLast?_concat

/-- Which input of a merge a block flows into. -/
theorem mergeInput_eq_ok_iff {merge : NodeId} {n : Int64} (hmerge : c.merge? = some merge) :
    mergeInput s c merge = .ok n ↔ ∃ e, Joins s c.first merge e ∧ inflow e = n := by
  obtain ⟨hinto, hother⟩ := (hc.merge?_eq_some_iff hs).1 hmerge
  unfold mergeInput
  constructor
  · intro h
    split at h
    · rename_i e hfind
      obtain ⟨hmem, before, after, hsplit, hbefore⟩ := List.find?_eq_some_iff_append.1 hfind
      refine ⟨e, ⟨hc.first_mem, hinto, hother, (hc.mem_nodes_iff_holds hs).1 (by simpa using hmem), before, after,
        hsplit, fun x hx => ?_⟩, Except.ok.inj h⟩
      rw [← hc.mem_nodes_iff_holds hs]
      simpa using hbefore x hx
    · cases h
  · rintro ⟨e, hjoins, rfl⟩
    obtain ⟨before, after, hsplit, hbefore⟩ := hjoins.earliest
    have hfind : (s.inputsWhere merge Role.isControl).find? (fun e => c.nodes.contains e.source) = some e := by
      refine List.find?_eq_some_iff_append.2 ⟨?_, before, after, hsplit, fun x hx => ?_⟩
      · simpa using (hc.mem_nodes_iff_holds hs).2 hjoins.holds
      · have hnot := hbefore x hx
        rw [← hc.mem_nodes_iff_holds hs] at hnot
        simpa using hnot
    rw [hfind]
    rfl

end ChainOf

/-! ## Plans -/

/-- If all nodes are in blocks and one returns, a plan is found. -/
theorem exists_plan {s : Graph} {order : NodeId → List NodeId} (hs : Scheduled s order) (h : Listable s) :
    ∃ chains layout, plan s = .ok (chains, layout) := by
  have hmem : ∀ {first id : NodeId}, first ∈ blockFirsts s → InBlock s first id → id ∈ blockMembers s first :=
    fun hfirst => (mem_blockMembers_iff_inBlock hs.consistent (mem_blockFirsts.1 hfirst).1).2
  obtain ⟨collected, hcollect⟩ := exists_collectChains hs
  have hcollected := collected_of_collectChains hs hcollect
  have hcheck : checkCoverage s collected = .ok () := by
    cases hcase : checkCoverage s collected with
    | ok => rfl
    | error cause =>
        obtain ⟨id, hid, -, hnone⟩ := hcollected.checkCoverage_eq_error hcase
        obtain ⟨first, hfirst, hin⟩ := h.covered id hid
        exact absurd (hmem hfirst hin) (hnone first hfirst)
  obtain ⟨ordered, horder⟩ : ∃ ordered, orderChains collected = .ok ordered := by
    obtain ⟨id, hop⟩ := h.returns
    obtain ⟨first, hfirst, hin⟩ := h.covered id (Graph.has_of_op_ne_invalid (by rw [hop]; decide))
    obtain ⟨c, hc, hid⟩ := List.mem_flatMap.1 (hcollected.mem_nodes_of_mem_blockMembers hfirst (hmem hfirst hin))
    have hreturns : c.returns = true := by
      rw [(hcollected.chainOf c hc).returns, List.any_eq_true]
      exact ⟨id, hid, by simp [hop]⟩
    have hsome : (collected.filter Chain.returns).isEmpty = false := by
      rw [List.isEmpty_eq_false_iff]
      exact List.ne_nil_of_mem (List.mem_filter.2 ⟨hc, hreturns⟩)
    exact ⟨_, by rw [orderChains, hsome]; rfl⟩
  obtain ⟨layout, hlayout⟩ := hcollected.exists_layoutOf (orderChains_eq_ok horder).1
  exact ⟨ordered, layout, bind_eq_ok.2 ⟨collected, hcollect, bind_eq_ok.2 ⟨(), hcheck,
    bind_eq_ok.2 ⟨ordered, horder, bind_eq_ok.2 ⟨layout, hlayout, rfl⟩⟩⟩⟩⟩

/-- A block that joins a merge by an edge flows into it in the layout. -/
theorem Planned.exists_incoming {s : Graph} {order : NodeId → List NodeId} {chains : List Chain} {layout : Layout}
    (h : Planned s order chains layout) (hs : Scheduled s order) {first merge : NodeId} {e : Edge}
    (hjoins : Joins s first merge e) : ∃ other, layout.incoming.lookup (merge, inflow e) = some other := by
  obtain ⟨c, hc, rfl⟩ := List.mem_map.1 (h.firsts.mem_iff.2 hjoins.begins)
  have hcOf := h.chainOf c hc
  have hmerge := (hcOf.merge?_eq_some_iff hs).2 ⟨hjoins.into, hjoins.other⟩
  have hinput := (hcOf.mergeInput_eq_ok_iff hs hmerge).2 ⟨e, hjoins, rfl⟩
  have hmem : ((merge, inflow e), c.first) ∈ layout.incoming := by
    rw [h.incoming, List.mem_reverse]
    refine List.mem_flatMap.2 ⟨c, hc, ?_⟩
    simp [flowOf, hmerge, hinput]
  refine Option.ne_none_iff_exists'.1 fun hnone => ?_
  rw [List.lookup_eq_none_iff] at hnone
  simpa using hnone _ hmem

/-! ## Instructions -/

theorem exists_soleInput_iff {g : Graph} {id : NodeId} {role : Role} :
    (∃ x, soleInput g id role = .ok x) ↔ (g.inputsWhere id (· = role)).length = 1 := by
  constructor
  · rintro ⟨x, hx⟩
    obtain ⟨e, he, -⟩ := soleInput_eq_ok hx
    rw [he, List.length_singleton]
  · intro hone
    obtain ⟨e, he⟩ := List.length_eq_one_iff.1 hone
    rw [soleInput, he]
    exact ⟨e.source, rfl⟩

theorem exists_soleOutput_iff {g : Graph} {id : NodeId} {name : Role.Name} :
    (∃ x, soleOutput g id name = .ok x) ↔ (g.outputsNamed id name).length = 1 := by
  unfold soleOutput
  constructor
  · rintro ⟨x, hx⟩
    split at hx
    · rename_i e he
      rw [he, List.length_singleton]
    · cases hx
  · intro hone
    obtain ⟨e, he⟩ := List.length_eq_one_iff.1 hone
    rw [he]
    exact ⟨e.target, rfl⟩

/-- An input of a merge is named only by a phi that has an operand of that number. -/
theorem phi_of_mem_trailing {g : Graph} {id merge : NodeId} {n : Int64} {d : Draft} (h : emitNode g id = .ok d)
    (href : .incoming merge n ∈ d.trailing) :
    g.op id = .phi ∧ g.phiMerge? id = some merge ∧ ∃ e ∈ g.inputsNamed id .value, e.role.index = some n := by
  have hdraft := emitNode_eq_ok h
  by_cases hphi : g.op id = .phi
  · have hrefs := (hdraft.phi hphi).2
    refine ⟨hphi, ?_⟩
    unfold phiOperands at hrefs
    split at hrefs
    · cases hrefs
    · rename_i other hmerge
      obtain ⟨pairs, hpairs, hflat⟩ := bind_eq_ok.1 hrefs
      rw [← pure_eq_ok.1 hflat] at href
      obtain ⟨pair, hpair, href⟩ := List.mem_flatten.1 href
      obtain ⟨e, hmem, he⟩ := forall₂_mem_right (mapM_eq_ok.1 hpairs) hpair
      unfold phiPair at he
      split at he
      · cases he
      · rename_i m hindex
        obtain ⟨r, -, he⟩ := bind_eq_ok.1 he
        cases he
        simp only [List.mem_cons, List.not_mem_nil, or_false, reduceCtorEq, Ref.incoming.injEq] at href
        obtain ⟨rfl, rfl⟩ := href
        exact ⟨hmerge, e, List.mem_filter.2 (by simpa using mem_operandEdges.1 hmem), hindex⟩
  by_cases hsend : g.op id = .send
  · obtain ⟨source, receiver, name, args, -, -, hargs, hrefs⟩ := sendOperands_eq_ok (hdraft.send hsend)
    rw [hrefs] at href
    simp only [List.mem_cons, reduceCtorEq, false_or] at href
    obtain ⟨m, -, harg⟩ := forall₂_mem_right hargs href
    obtain ⟨arg, -, harg⟩ := bind_eq_ok.1 harg
    obtain ⟨r, -, harg⟩ := bind_eq_ok.1 harg
    cases harg
  by_cases hbranch : g.op id = .branch
  · obtain ⟨ways, hrefs⟩ := branchOperands_eq_ok (hdraft.branch hbranch)
    rw [hrefs] at href
    simp at href
  · rw [hdraft.plain hphi hbranch hsend] at href
    cases href

section Emission

variable {s : Graph} {order : NodeId → List NodeId} {chains : List Chain} {layout : Layout}
  (hs : Scheduled s order) (hplan : plan s = .ok (chains, layout))
  (hfresh : ∀ id, (s.props id).has Props.register = false)
include hs hplan hfresh

/-- Each value is given a register. -/
theorem exists_registerOf {id : NodeId} (hvalue : s.producesValue id = true) :
    ∃ r, registerOf (assignRegisters s chains) id = .ok r := by
  have hlive : s.has id = true := by
    apply Graph.has_of_op_ne_invalid
    intro hop
    rw [Graph.producesValue, hop] at hvalue
    cases hvalue
  have hmem := ((covers_of_plan hs.consistent hplan).mem_iff id).2 hlive
  exact ⟨_, ((planned_of_plan hs hplan).numbered hs hfresh).registerOf_eq_ok.2 ⟨⟨hmem, hvalue⟩, rfl⟩⟩

theorem exists_destination (id : NodeId) : ∃ r, destination (assignRegisters s chains) id = .ok r := by
  unfold destination
  split
  · rename_i hvalue
    rw [Graph.producesValue, (agree_assignRegisters s chains).op, ← Graph.producesValue] at hvalue
    obtain ⟨r, hr⟩ := exists_registerOf hs hplan hfresh hvalue
    rw [registerOf_eq_ok_iff.1 hr]
    exact ⟨r, rfl⟩
  · exact ⟨_, rfl⟩

variable (hvalued : s.Valued)
include hvalued

/-- So is each operand. -/
theorem exists_registerOf_source {id : NodeId} {e : Edge} (he : e ∈ (assignRegisters s chains).inputs id)
    (hvalue : e.role.isValue = true) : ∃ r, registerOf (assignRegisters s chains) e.source = .ok r := by
  rw [(agree_assignRegisters s chains).inputs_eq] at he
  exact exists_registerOf hs hplan hfresh
    (hvalued e (Graph.multiplicity_pos.2 (hs.consistent.mem_outputs he)) hvalue)

theorem exists_registerOf_soleInput {id x : NodeId} {role : Role} (hvalue : role.isValue = true)
    (hx : soleInput (assignRegisters s chains) id role = .ok x) :
    ∃ r, registerOf (assignRegisters s chains) x = .ok r := by
  obtain ⟨e, -, he, rfl, rfl⟩ := soleInput_eq_ok hx
  exact exists_registerOf_source hs hplan hfresh hvalued he hvalue

theorem exists_operandRegister {id : NodeId} {e : Edge} (he : e ∈ operandEdges (assignRegisters s chains) id) :
    ∃ r, registerOf (assignRegisters s chains) e.source = .ok r := by
  obtain ⟨he, hname⟩ := mem_operandEdges.1 he
  exact exists_registerOf_source hs hplan hfresh hvalued he (by rw [Role.isValue, hname]; rfl)

theorem exists_phiOperands {id : NodeId} (hfed : Fed s id) :
    ∃ refs, phiOperands (assignRegisters s chains) id = .ok refs := by
  have hagree := agree_assignRegisters s chains
  obtain ⟨merge, hmerge, hoperands⟩ := hfed
  rw [phiOperands, hagree.sameProgram.phiMerge?, hmerge]
  refine bind_succeeds (mapM_succeeds fun e he => ?_) fun _ _ => ⟨_, rfl⟩
  have hmem := mem_operandEdges.1 he
  rw [hagree.inputs_eq] at hmem
  obtain ⟨n, -, -, hindex, -⟩ := hoperands e (List.mem_filter.2 (by simpa using hmem))
  rw [phiPair, hindex]
  exact bind_succeeds (exists_operandRegister hs hplan hfresh hvalued he) fun _ _ => ⟨_, rfl⟩

variable {id : NodeId} (hoperable : Operable s id)
include hoperable

theorem exists_branchOperands (hop : s.op id = .branch) :
    ∃ refs, branchOperands (assignRegisters s chains) id = .ok refs := by
  have hagree := agree_assignRegisters s chains
  refine bind_succeeds ?_ fun x hx => ?_
  · rw [soleInput_agree hagree _ rfl]
    exact exists_soleInput_iff.2 (hoperable.condition hop)
  refine bind_succeeds (exists_registerOf_soleInput hs hplan hfresh hvalued rfl hx) fun _ _ => ?_
  refine bind_succeeds ?_ fun _ _ => bind_succeeds ?_ fun _ _ => ⟨_, rfl⟩
  · rw [soleOutput_agree hagree _ fun _ _ => rfl]
    exact exists_soleOutput_iff.2 (hoperable.outcomes hop .ifTrue (.inl rfl))
  · rw [soleOutput_agree hagree _ fun _ _ => rfl]
    exact exists_soleOutput_iff.2 (hoperable.outcomes hop .ifFalse (.inr rfl))

theorem exists_sendOperands (hop : s.op id = .send) :
    ∃ refs, sendOperands (assignRegisters s chains) id = .ok refs := by
  have hagree := agree_assignRegisters s chains
  refine bind_succeeds ?_ fun x hx => ?_
  · rw [soleInput_agree hagree _ rfl]
    exact exists_soleInput_iff.2 (hoperable.receiver hop)
  refine bind_succeeds (exists_registerOf_soleInput hs hplan hfresh hvalued rfl hx) fun _ _ => ?_
  obtain ⟨name, hname⟩ := hoperable.selector hop
  have hselector : ((assignRegisters s chains).props id).str? Props.selector = some name := by
    rw [← hname, Props.str?, Props.str?, assignRegisters, get?_props_numberNodes (by decide)]
  rw [hselector]
  refine bind_succeeds ⟨name, rfl⟩ fun _ _ => bind_succeeds (mapM_succeeds fun n hn => ?_) fun _ _ => ⟨_, rfl⟩
  rw [List.mem_range, argumentCount_assignRegisters, Graph.inputsNamed, hagree.inputsWhere_of_le fun _ _ => rfl] at hn
  refine bind_succeeds ?_ fun arg harg => ?_
  · rw [soleInput_agree hagree _ rfl]
    exact exists_soleInput_iff.2 (hoperable.args hop n hn)
  · exact bind_succeeds (exists_registerOf_soleInput hs hplan hfresh hvalued rfl harg) fun _ _ => ⟨_, rfl⟩

/-- A node whose operands are there emits its instruction. -/
theorem exists_emitNode (hfed : s.op id = .phi → Fed s id) : ∃ d, emitNode (assignRegisters s chains) id = .ok d := by
  have hop := (agree_assignRegisters s chains).op id
  refine bind_succeeds (exists_destination hs hplan hfresh id) fun _ _ => ?_
  rw [hop]
  split
  · rename_i hphi
    exact bind_succeeds (exists_phiOperands hs hplan hfresh hvalued (hfed hphi)) fun _ _ => ⟨_, rfl⟩
  · refine bind_succeeds (mapM_succeeds fun e he => exists_operandRegister hs hplan hfresh hvalued he) fun _ _ => ?_
    split
    · rename_i hbranch
      exact bind_succeeds (exists_branchOperands hs hplan hfresh hvalued hoperable hbranch) fun _ _ => ⟨_, rfl⟩
    · split
      · rename_i hsend
        exact bind_succeeds (exists_sendOperands hs hplan hfresh hvalued hoperable hsend) fun _ _ => ⟨_, rfl⟩
      · exact ⟨_, rfl⟩

end Emission

section Chains

variable {s : Graph} {order : NodeId → List NodeId} {chains : List Chain} {layout : Layout}
  (hs : Scheduled s order) (hplan : plan s = .ok (chains, layout)) (h : Listable s)
include hs hplan h

/-- What the instructions of a block refer to is in the layout. -/
theorem exists_resolveDraft {c : Chain} (hc : c ∈ chains) {drafts : List Draft}
    (hdrafts : emitChain (assignRegisters s chains) c = .ok drafts) {d : Draft} (hd : d ∈ drafts) :
    ∃ x, layout.resolveDraft d = .ok x := by
  have hagree := agree_assignRegisters s chains
  have hp := planned_of_plan hs hplan
  refine bind_succeeds (mapM_succeeds fun ref href => ?_) fun _ _ => ⟨_, rfl⟩
  cases ref with
  | register r => exact ⟨_, rfl⟩
  | selector name => exact ⟨_, rfl⟩
  | entry node => exact hp.exists_blockOf (mem_blockFirsts_of_emitChain hs hagree (hp.chainOf c hc) hdrafts hd href)
  | incoming merge n =>
      rcases mem_drafts hdrafts hd with ⟨id, -, hemit⟩ | ⟨other, -, rfl⟩
      · obtain ⟨hphi, hmerge, e, he, hindex⟩ := phi_of_mem_trailing hemit href
        rw [hagree.op] at hphi
        rw [hagree.sameProgram.phiMerge?] at hmerge
        rw [Graph.inputsNamed, hagree.inputsWhere_of_le fun _ _ => rfl] at he
        obtain ⟨merge', hmerge', hoperands⟩ := h.fed id hphi
        rw [hmerge, Option.some.injEq] at hmerge'
        subst hmerge'
        obtain ⟨m, first, x, hindex', hjoins, hinflow⟩ := hoperands e he
        rw [hindex, Option.some.injEq] at hindex'
        subst hindex'
        obtain ⟨other, hother⟩ := hp.exists_incoming hs hjoins
        rw [hinflow] at hother
        rw [Layout.resolve, hother]
        exact hp.exists_blockOf (hp.mem_blockFirsts_of_incoming hother)
      · simp at href

variable (hfresh : ∀ id, (s.props id).has Props.register = false) (hvalued : s.Valued)
include hfresh hvalued

/-- A block that is left has all its instructions. -/
theorem exists_emitChain {c : Chain} (hc : c ∈ chains) :
    ∃ drafts, emitChain (assignRegisters s chains) c = .ok drafts := by
  have hagree := agree_assignRegisters s chains
  have hcOf := (planned_of_plan hs hplan).chainOf c hc
  refine bind_succeeds (mapM_succeeds fun id _ => ?_) fun body hbody => ?_
  · exact exists_emitNode hs hplan hfresh hvalued (h.operable id) (h.fed id)
  cases hmerge : c.merge? with
  | some merge =>
      split
      · exact ⟨body, rfl⟩
      · exact ⟨_, rfl⟩
  | none =>
      obtain ⟨id, hlast, hop⟩ := hcOf.getLast?_of_left hs (h.left c.first hcOf.first_mem) hmerge
      have hemits : emits s id = true := mem_emits.2 (by rcases hop with hop | hop <;> simp [hop])
      have hfilter : (c.nodes.filter (emits (assignRegisters s chains))).getLast? = some id := by
        rw [emits_agree hagree]
        exact ((covers_of_plan hs.consistent hplan).getLast?_filter_emits hc hemits).2 hlast
      obtain ⟨d, hd, hemit⟩ := exists_getLast?_of_forall₂ (mapM_eq_ok.1 hbody) hfilter
      have hdraft := (emitNode_eq_ok hemit).op
      rw [hagree.op] at hdraft
      have hcloses : closesBlock d = true := by
        rw [closesBlock, hdraft, Bool.or_eq_true, decide_eq_true_eq, decide_eq_true_eq, opcode_eq_return,
          opcode_eq_branch]
        exact hop.symm
      rw [hd, Option.map_some, Option.getD_some, if_pos hcloses]
      exact ⟨body, rfl⟩

end Chains

/-- A scheduled graph that asks for no more than that is listed. -/
theorem linearize_of_listable {s : Graph} {order : NodeId → List NodeId} (hs : Scheduled s order) (hvalued : s.Valued)
    (hfresh : ∀ id, (s.props id).has Props.register = false) (h : Listable s) :
    ∃ blocks, (linearize s).result = .ok blocks := by
  obtain ⟨chains, layout, hplan⟩ := exists_plan hs h
  rw [linearize, hplan]
  refine bind_succeeds (mapM_succeeds fun c hc => exists_emitChain hs hplan h hfresh hvalued hc) fun drafts hdrafts => ?_
  refine bind_succeeds (mapM_succeeds fun block hblock => mapM_succeeds fun d hd => ?_) fun _ _ => ⟨_, rfl⟩
  obtain ⟨c, hc, hemit⟩ := forall₂_mem_right (mapM_eq_ok.1 hdrafts) hblock
  exact exists_resolveDraft hs hplan h hc hemit hd

/-! ## What a listing shows -/

/-- Some chain of a plan returns. -/
theorem exists_returns_of_plan {g : Graph} {chains : List Chain} {layout : Layout} (h : plan g = .ok (chains, layout)) :
    ∃ c ∈ chains, c.returns = true := by
  obtain ⟨collected, -, h⟩ := bind_eq_ok.1 h
  obtain ⟨-, -, h⟩ := bind_eq_ok.1 h
  obtain ⟨ordered, horder, h⟩ := bind_eq_ok.1 h
  obtain ⟨_, -, hpair⟩ := bind_eq_ok.1 h
  cases hpair
  rw [orderChains] at horder
  split at horder
  · cases horder
  · rename_i hsome
    obtain ⟨c, hc⟩ := List.exists_mem_of_ne_nil _ (mt List.isEmpty_iff.2 hsome)
    cases horder
    exact ⟨c, List.mem_append_right _ hc, (List.mem_filter.1 hc).2⟩

namespace Listed

variable {s out : Graph} {order : NodeId → List NodeId} {chains : List Chain} {layout : Layout} {blocks : List Block}
  (h : Listed s order out chains layout blocks)
include h

/-- Every node that emits an instruction has emitted it. -/
theorem exists_emits (hcovers : Covers s chains) {id : NodeId} (hid : s.has id = true) (hemits : emits s id = true) :
    ∃ x, Emits out layout id x := by
  obtain ⟨i, c, hc, hmem⟩ := hcovers.exists_chain hid
  obtain ⟨body, raw, hbody, -, -⟩ := h.block i c hc
  rw [← emits_agree h.agree] at hemits
  obtain ⟨x, -, hx⟩ := forall₂_mem_left hbody.nodes (List.mem_filter.2 ⟨hmem, hemits⟩)
  exact ⟨x, hx⟩

theorem exists_drafted (hcovers : Covers s chains) {id : NodeId} (hop : s.op id = .branch ∨ s.op id = .send) :
    ∃ d, Drafted out id d := by
  have hlive : s.has id = true := Graph.has_of_op_ne_invalid fun hinvalid => by simp [hinvalid] at hop
  have hemits : emits s id = true := mem_emits.2 (by rcases hop with hop | hop <;> simp [hop])
  obtain ⟨x, d, hd, -⟩ := h.exists_emits hcovers hlive hemits
  exact ⟨d, emitNode_eq_ok hd⟩

/-- A branch or a send that was listed has its inputs and outputs. -/
theorem operable (hcovers : Covers s chains) (id : NodeId) : Operable s id := by
  have hways : s.op id = .branch → Nonempty (BranchWays out id) := by
    intro hop
    obtain ⟨d, hd⟩ := h.exists_drafted hcovers (.inl hop)
    obtain ⟨ways, -⟩ := branchOperands_eq_ok (hd.branch (by rw [h.agree.op, hop]))
    exact ⟨ways⟩
  have hsend : s.op id = .send → ∃ refs, sendOperands out id = .ok refs := by
    intro hop
    obtain ⟨d, hd⟩ := h.exists_drafted hcovers (.inr hop)
    exact ⟨_, hd.send (by rw [h.agree.op, hop])⟩
  refine ⟨fun hop => ?_, fun hop name hname => ?_, fun hop => ?_, fun hop => ?_, fun hop n hn => ?_⟩
  · obtain ⟨ways⟩ := hways hop
    exact exists_soleInput_iff.1 ⟨_, soleInput_agree h.agree id rfl ▸ ways.condition_eq⟩
  · obtain ⟨ways⟩ := hways hop
    rcases hname with rfl | rfl
    · exact exists_soleOutput_iff.1 ⟨_, (soleOutput_agree h.agree id fun _ _ => rfl) ▸ ways.ifTrue_eq⟩
    · exact exists_soleOutput_iff.1 ⟨_, (soleOutput_agree h.agree id fun _ _ => rfl) ▸ ways.ifFalse_eq⟩
  · obtain ⟨refs, hrefs⟩ := hsend hop
    obtain ⟨source, receiver, name, args, hsource, -⟩ := sendOperands_eq_ok hrefs
    exact exists_soleInput_iff.1 ⟨source, soleInput_agree h.agree id rfl ▸ hsource⟩
  · obtain ⟨refs, hrefs⟩ := hsend hop
    have hsame : (out.props id).str? Props.selector = (s.props id).str? Props.selector := by
      rw [Props.str?, Props.str?, h.out_eq, assignRegisters, get?_props_numberNodes (by decide)]
    refine Option.ne_none_iff_exists'.1 fun hnone => ?_
    obtain ⟨_, -, hrefs⟩ := bind_eq_ok.1 hrefs
    obtain ⟨_, -, hrefs⟩ := bind_eq_ok.1 hrefs
    rw [hsame, hnone] at hrefs
    cases hrefs
  · obtain ⟨refs, hrefs⟩ := hsend hop
    obtain ⟨source, receiver, name, args, -, -, hargs, -⟩ := sendOperands_eq_ok hrefs
    rw [h.out_eq, argumentCount_assignRegisters, ← h.out_eq, Graph.inputsNamed,
      h.agree.inputsWhere_of_le fun _ _ => rfl] at hargs
    obtain ⟨ref, -, href⟩ := forall₂_mem_left hargs (List.mem_range.2 hn)
    obtain ⟨x, hx, -⟩ := bind_eq_ok.1 href
    exact exists_soleInput_iff.1 ⟨x, soleInput_agree h.agree id rfl ▸ hx⟩

variable (hs : Scheduled s order)
include hs

/-- A block that was listed is left. -/
theorem left (hcovers : Covers s chains) {first : NodeId} (hfirst : first ∈ blockFirsts s) : Left s first := by
  obtain ⟨c, hc, rfl⟩ := List.mem_map.1 (h.planned.firsts.mem_iff.2 hfirst)
  have hcOf := h.planned.chainOf c hc
  obtain ⟨i, hi⟩ := List.mem_iff_getElem?.1 hc
  obtain ⟨body, raw, hbody, -, -⟩ := h.block i c hi
  cases hmerge : c.merge? with
  | some merge =>
      obtain ⟨hin, hother⟩ := (hcOf.merge?_eq_some_iff hs).1 hmerge
      refine ⟨merge, hin, by simp [endsBlock, hother], fun heq => ?_⟩
      rw [heq, isOtherMerge_self] at hother
      cases hother
  | none =>
      have hnodes := (hcovers.traced c hc).nodes_eq
      obtain ⟨last, hlast⟩ : ∃ last, c.nodes.getLast? = some last :=
        Option.isSome_iff_exists.1 (List.getLast?_isSome.2 (by rw [hnodes]; exact List.cons_ne_nil _ _))
      have hmem := List.mem_of_getLast? hlast
      have halone : last = c.first → c.nodes = [c.first] := fun heq => hcovers.nodes_eq_singleton hc (heq ▸ hlast)
      have hemits : emits s last = true := by
        by_contra hnot
        have heq : last = c.first := by
          rw [hnodes, List.mem_cons] at hmem
          exact hmem.resolve_right fun htail => hnot (hcovers.emits_of_mem_tail hc htail)
        have hnone := hbody.nodes
        rw [halone heq, emits_agree h.agree, List.filter_cons_of_neg (heq ▸ hnot), List.filter_nil,
          List.forall₂_nil_left_iff] at hnone
        rcases hbody.ending with ⟨-, x, hx, -⟩ | ⟨-, merge, -, hsome, -⟩
        · rw [hnone] at hx
          cases hx
        · rw [hmerge] at hsome
          cases hsome
      have hop := hbody.op_of_getLast? hmerge hlast (by rw [emits_agree h.agree]; exact hemits)
      rw [h.agree.op] at hop
      refine ⟨last, (hcOf.inBlock_iff hs).2 (.inl hmem), ?_, fun heq x hx => ?_⟩
      · rcases hop with hop | hop
        · simp [endsBlock, hop]
        · simp [endsBlock, hop]
      · have hx := ((hcOf.inBlock_iff hs).1 hx).resolve_right (by simp [hmerge])
        rw [halone heq] at hx
        exact List.mem_singleton.1 hx

/-- The operands of a phi that was listed come by blocks that flow into its merge. -/
theorem fed (hcovers : Covers s chains) {id : NodeId} (hop : s.op id = .phi) : Fed s id := by
  obtain ⟨x, hx⟩ := h.exists_emits hcovers (Graph.has_of_op_ne_invalid (by rw [hop]; decide)) (by simp [emits, hop])
  have hopOut : out.op id = .phi := by rw [h.agree.op, hop]
  have hmergeOut := h.agree.sameProgram.phiMerge? id
  obtain ⟨merge, hmerge⟩ : ∃ merge, out.phiMerge? id = some merge := by
    obtain ⟨d, hd, -⟩ := hx
    have hrefs := ((emitNode_eq_ok hd).phi hopOut).2
    unfold phiOperands at hrefs
    split at hrefs
    · cases hrefs
    · exact ⟨_, by assumption⟩
  obtain ⟨-, pairs, -, hpairs⟩ := hx.phi_pairs hopOut hmerge
  refine ⟨merge, hmergeOut ▸ hmerge, fun e he => ?_⟩
  have hmem : e ∈ operandEdges out id := by
    rw [mem_operandEdges, h.agree.inputs_eq]
    simpa using List.mem_filter.1 he
  obtain ⟨-, -, n, first, -, -, hindex, hincoming, -⟩ := forall₂_mem_left hpairs hmem
  obtain ⟨c, hc, rfl, hends, hinput⟩ := h.planned.exists_flow hincoming
  obtain ⟨y, hjoins, hinflow⟩ := ((h.planned.chainOf c hc).mergeInput_eq_ok_iff hs hends).1 hinput
  exact ⟨n, c.first, y, hindex, hjoins, hinflow⟩

end Listed

/-- A scheduled graph that was listed asked for no more than that. -/
theorem listable_of_linearize {s : Graph} {order : NodeId → List NodeId} (hs : Scheduled s order) {blocks : List Block}
    (h : (linearize s).result = .ok blocks) : Listable s := by
  have hdone : linearize s = .done (linearize s).state blocks := by
    rw [Outcome.done, ← h]
  obtain ⟨chains, layout, hplan, hlisted⟩ := listed_of_linearize hs hdone
  have hcovers := covers_of_plan hs.consistent hplan
  refine ⟨fun id hid => ?_, ?_, fun first => hlisted.left hs hcovers, fun id => hlisted.fed hs hcovers,
    hlisted.operable hcovers⟩
  · obtain ⟨i, c, hc, hmem⟩ := hcovers.exists_chain hid
    have hcOf := hlisted.planned.chainOf c (List.mem_of_getElem? hc)
    exact ⟨c.first, hcOf.first_mem, ((hcOf.mem_nodes_iff_holds hs).1 hmem).1⟩
  · obtain ⟨c, hc, hreturns⟩ := exists_returns_of_plan hplan
    rw [(hlisted.planned.chainOf c hc).returns, List.any_eq_true] at hreturns
    obtain ⟨id, -, hop⟩ := hreturns
    exact ⟨id, of_decide_eq_true hop⟩

/-- When a scheduled graph whose values carry no registers is listed. -/
theorem exists_linearize_iff {s : Graph} {order : NodeId → List NodeId} (hs : Scheduled s order) (hvalued : s.Valued)
    (hfresh : ∀ id, (s.props id).has Props.register = false) :
    (∃ blocks, (linearize s).result = .ok blocks) ↔ Listable s :=
  ⟨fun ⟨_, h⟩ => listable_of_linearize hs h, linearize_of_listable hs hvalued hfresh⟩

end SeaOfNodes.Listing
