/-
  SeaOfNodes.Proofs.Listing.PhiPredecessors

  A phi reads each of its operands from the block that the operand is scheduled for.  The
  schedule asks where the input of the merge with the number of the operand comes from, and
  puts the operand there; the listing names the block that flows into the merge by this
  number.  Where the inputs of the merge have different numbers, both are the same.  The
  operands are in the order of their numbers as long as no difference of two of them leaves
  64 bits: none does of the numbers that a role is written with.
-/
import SeaOfNodes.Proofs.Listing.Conservation
import SeaOfNodes.Proofs.Listing.Inflow

namespace SeaOfNodes.Listing

open Schedule

/-! ## The pairs of a phi -/

/-- A pair of a phi as the layout has it: the block that flows into the merge by the number
    of the operand, and the register of the operand. -/
def LaidPair (g : Graph) (layout : Layout) (merge : NodeId) (e : Edge) (pair : List Operand) : Prop :=
  ∃ n first block r, e.role.index = some n ∧ layout.incoming.lookup (merge, n) = some first ∧
    layout.index.lookup first = some block ∧ registerOf g e.source = .ok r ∧
    pair = [.ofBlock (Int64.ofNat block), .ofRegister r]

/-- A listed phi has a pair for each operand, in operand order, and nothing else. -/
theorem Emits.phi_pairs {g : Graph} {layout : Layout} {phi merge : NodeId} {x : Instr}
    (h : Emits g layout phi x) (hphi : g.op phi = .phi) (hmerge : g.phiMerge? phi = some merge) :
    x.args = [] ∧ ∃ pairs : List (List Operand), x.trailing = pairs.flatten ∧
      List.Forall₂ (LaidPair g layout merge) (operandEdges g phi) pairs := by
  obtain ⟨d, hd, hi⟩ := h
  obtain ⟨-, -, -, hargs, htrailing⟩ := resolveDraft_eq_ok hi
  obtain ⟨hnoArgs, hoperands⟩ := (emitNode_eq_ok hd).phi hphi
  rw [phiOperands, hmerge] at hoperands
  obtain ⟨refs, hrefs, hflat⟩ := bind_eq_ok.1 hoperands
  rw [← pure_eq_ok.1 hflat] at htrailing
  obtain ⟨pairs, hpairs, hresolve⟩ := forall₂_flatten_left htrailing
  refine ⟨hargs.trans hnoArgs, pairs, hpairs, ?_⟩
  refine (forall₂_comp (mapM_eq_ok.1 hrefs) hresolve).imp fun e pair hpair => ?_
  obtain ⟨ref, href, hresolve⟩ := hpair
  exact phiPair_eq_ok href hresolve

/-- A pair of a phi as the schedule has it: the operand is needed at the predecessor of the
    merge with its number, and the pair names the block which has this node and ends at the
    merge. -/
def ScheduledPair (g out : Graph) (chains : List Chain) (merge : NodeId) (e : Edge) (pair : List Operand) : Prop :=
  ∃ n pred b c r, e.role.index = some n ∧ g.mergePredecessor? merge n = some pred ∧ g.useSite e = pred ∧
    chains[b]? = some c ∧ pred ∈ c.nodes ∧ c.merge? = some merge ∧ registerOf out e.source = .ok r ∧
    pair = [.ofBlock (Int64.ofNat b), .ofRegister r]

/-- The block of the layout is the one of the schedule. -/
theorem LaidPair.scheduled {s out : Graph} {order : NodeId → List NodeId} {chains : List Chain} {layout : Layout}
    (hplanned : Planned s order chains layout) {merge : NodeId} (hdistinct : DistinctInflows s merge) {e : Edge}
    (hphi : s.op e.target = .phi) (hmerge : s.phiMerge? e.target = some merge) (hvalue : e.role.name = .value)
    (hnumber : e.role.index ≠ some (-1)) {pair : List Operand} (h : LaidPair out layout merge e pair) :
    ScheduledPair s out chains merge e pair := by
  obtain ⟨n, first, b, r, hn, hincoming, hindex, hr, rfl⟩ := h
  obtain ⟨c, hc, rfl, hends, hinput⟩ := hplanned.exists_flow hincoming
  obtain ⟨c', hb, hfirst⟩ := (hplanned.index b c.first).1 hindex
  obtain rfl : c' = c := hplanned.eq_of_first_eq (List.mem_of_getElem? hb) hc hfirst
  -- The edge that the block flows in by is the one with the number of the operand.
  obtain ⟨inflowing, hinflowing, hsource, rfl⟩ := mergeInput_eq_ok hinput
  have hne : inflow inflowing ≠ -1 := fun heq => hnumber (by rw [hn, heq])
  have hpred := mergePredecessor?_eq_source hdistinct hinflowing hne
  refine ⟨_, inflowing.source, b, c', r, hn, hpred, ?_, hb, hsource, hends, hr, rfl⟩
  rw [Graph.useSite, if_pos ⟨hphi, hvalue⟩, hn, Option.bind_some, hmerge, Option.bind_some, hpred, Option.getD_some]

/-- The schedule and the numbering leave the program alone, so the pairs may be read on
    either side. -/
theorem ScheduledPair.of_sameProgram {g s out : Graph} (hprogram : Graph.SameProgram g s) {chains : List Chain}
    {merge : NodeId} {e : Edge} {pair : List Operand} (h : ScheduledPair s out chains merge e pair) :
    ScheduledPair g out chains merge e pair := by
  obtain ⟨n, pred, b, c, r, hn, hpred, huse, hrest⟩ := h
  rw [hprogram.mergePredecessor?] at hpred
  rw [hprogram.useSite] at huse
  exact ⟨n, pred, b, c, r, hn, hpred, huse, hrest⟩

/-- The operands of a phi in the order of a listing. -/
theorem ascending_operandEdges {g : Graph} {phi : NodeId} (h : NumbersFit (g.inputsNamed phi .value)) :
    (operandEdges g phi).Pairwise fun a b => a.role.slot ≤ b.role.slot :=
  (orders_sortEdges h).ascends.imp fun hle => Int64.le_iff_toInt_le.2 hle

/-- A phi is listed at its place, in the block of its merge. -/
theorem Laid.phi_at {s out : Graph} {order : NodeId → List NodeId} {chains : List Chain} {layout : Layout}
    {blocks : List Block} (h : Laid s out chains layout blocks) (hs : Scheduled s order)
    (hplanned : Planned s order chains layout) {phi merge : NodeId} (hphi : s.op phi = .phi)
    (hmerge : s.phiMerge? phi = some merge) :
    ∃ x c, instrAt blocks (place s chains phi) = some x ∧ chains[(place s chains phi).1]? = some c ∧
      c.first = merge ∧ Emits out layout phi x := by
  have hlive : s.has phi = true := Graph.has_of_op_ne_invalid (by rw [hphi]; decide)
  obtain ⟨c, x, hc, hmem, hx, hstands⟩ := h.instrAt_place hlive (mem_emits.2 (by simp [hphi]))
  obtain ⟨b, home, -, hhome, hfirst, hmem'⟩ := hplanned.phi_home hs hphi hmerge
  obtain rfl := hplanned.eq_of_mem_nodes hs (List.mem_of_getElem? hc) (List.mem_of_getElem? hhome) hmem hmem'
  refine ⟨x, c, hx, hc, hfirst, ?_⟩
  cases hstands with
  | emitted hemits _ => exact hemits
  | decides hop _ _ _ _ =>
      rw [h.agree.op, hphi] at hop
      cases hop

/-! ## The result -/

/-- The schedule and the listing agree on where the operands of a phi come from.  A phi is
    listed in the block of its merge.  It has one pair for each of its operands: the index
    of the block that has the node for which the operand is scheduled and that ends at the
    merge, and the register of the operand.  The pairs are in the order of the numbers if no
    difference of two of these wraps, and so if none is below zero. -/
theorem linearize_phi_predecessors (g : Graph) (hg : g.Consistent) (hrun : (Schedule.run g).failure? = none)
    (out : Graph) (blocks : List Block) (hlist : linearize (Schedule.run g).graph = .done out blocks)
    (hdistinct : ∀ merge, g.op merge = .merge → DistinctInflows g merge) :
    ∃ chains layout, plan (Schedule.run g).graph = .ok (chains, layout) ∧
      Covers (Schedule.run g).graph chains ∧ blocks.length = chains.length ∧
      ∀ phi merge, g.op phi = .phi → g.phiMerge? phi = some merge →
        (∀ e ∈ g.inputsNamed phi .value, e.role.index ≠ some (-1)) →
        ∃ x c edges, ∃ pairs : List (List Operand),
          instrAt blocks (place (Schedule.run g).graph chains phi) = some x ∧ x.op = opcode .phi ∧
          chains[(place (Schedule.run g).graph chains phi).1]? = some c ∧ c.first = merge ∧
          edges.Perm (g.inputsNamed phi .value) ∧
          (NumbersFit (g.inputsNamed phi .value) → edges.Pairwise fun a b => a.role.slot ≤ b.role.slot) ∧
          ((∀ e ∈ g.inputsNamed phi .value, 0 ≤ e.role.slot) → NumbersFit (g.inputsNamed phi .value)) ∧
          x.args = [] ∧ x.trailing = pairs.flatten ∧ List.Forall₂ (ScheduledPair g out chains merge) edges pairs := by
  obtain ⟨hprogram, order, hs⟩ := scheduled_of_run hg hrun
  obtain ⟨chains, layout, hplan, hlaid⟩ := laid_of_linearize hs.consistent hlist
  have hplanned := planned_of_plan hs hplan
  have hout : Graph.SameProgram g out := hprogram.trans (hlaid.agree.mono fun _ _ => rfl)
  refine ⟨chains, layout, hplan, hlaid.covers, hlaid.length_eq, fun phi merge hphi hmerge hnumbers => ?_⟩
  obtain ⟨x, c, hx, hc, hfirst, hemits⟩ := hlaid.phi_at hs hplanned (by rw [hprogram.op, hphi])
    (by rw [hprogram.phiMerge?, hmerge])
  obtain ⟨hargs, pairs, htrailing, hpairs⟩ := hemits.phi_pairs (by rw [hout.op, hphi]) (by rw [hout.phiMerge?, hmerge])
  have hedges : operandEdges out phi = operandEdges g phi := by
    rw [operandEdges, operandEdges, Graph.inputsNamed, Graph.inputsNamed,
      hout.inputsWhere_of_le fun role hrole => Graph.unscheduled_of_isValue (by simp_all [Role.isValue, Role.Name.isValue])]
  rw [hedges] at hpairs
  refine ⟨x, c, operandEdges g phi, pairs, hx, by rw [hemits.op_eq, hout.op, hphi], hc, hfirst,
    StableSort.perm_sort _ _, ascending_operandEdges, numbersFit_of_nonneg, hargs, htrailing, ?_⟩
  refine forall₂_imp_of_mem hpairs fun e he pair hpair => ?_
  have hmem := (StableSort.perm_sort _ _).mem_iff.1 he
  obtain ⟨hinput, hname⟩ := mem_operandEdges.1 he
  obtain rfl := hg.target_eq phi e hinput
  have hmergeOp : g.op merge = .merge := by simpa using List.find?_some hmerge
  have hdistinct' : DistinctInflows (Schedule.run g).graph merge := by
    rw [DistinctInflows, hprogram.inputsWhere_of_le fun _ => Graph.unscheduled_of_isControl]
    exact hdistinct merge hmergeOp
  exact (hpair.scheduled hplanned hdistinct' (by rw [hprogram.op, hphi]) (by rw [hprogram.phiMerge?, hmerge])
    hname (hnumbers e hmem)).of_sameProgram hprogram

/-- Two arms into a merge, the one that runs when the condition holds by input 1, the other
    by a plain edge; the operands of the phi are connected in the opposite order. -/
def crossedArms : Graph :=
  .assemble [.start, .arg, .branch, .trace, .trace, .merge, .phi, .finish, .self]
    [⟨0, 2, .control⟩, ⟨1, 2, .condition⟩, ⟨2, 3, .ifTrue⟩, ⟨2, 4, .ifFalse⟩, ⟨3, 5, .controlN 1⟩, ⟨4, 5, .control⟩,
      ⟨5, 6, .control⟩, ⟨6, 7, .control⟩, ⟨8, 6, .valueN 1⟩, ⟨1, 6, .valueN 0⟩, ⟨6, 7, .value⟩]

theorem consistent_crossedArms : crossedArms.Consistent := Graph.consistent_assemble (by decide)

def crossedArmsBlocks : List Block :=
  [[⟨"arg", 0, [], [], []⟩, conditional branchUnlessOp (.ofRegister 0) (.ofBlock 2)],
    [⟨"trace", noRegister, [], [], []⟩, ⟨"self", 1, [], [], []⟩, jumpTo (.ofBlock 3)],
    [⟨"trace", noRegister, [], [], []⟩],
    [⟨"phi", 2, [], [], [.ofBlock 2, .ofRegister 0, .ofBlock 1, .ofRegister 1]⟩,
      ⟨returnOp, noRegister, [], [2], []⟩]]

/-- The phi reads the argument from the block of the plain edge and the other value from
    the block of input 1, in this order. -/
theorem linearize_crossedArms_phi_predecessors :
    crossedArms.Consistent ∧ (Schedule.run crossedArms).failure? = none ∧ ∃ out,
      linearize (Schedule.run crossedArms).graph = .done out crossedArmsBlocks ∧
      ∃ chains x c edges, ∃ pairs : List (List Operand),
        instrAt crossedArmsBlocks (place (Schedule.run crossedArms).graph chains 6) = some x ∧
        chains[(place (Schedule.run crossedArms).graph chains 6).1]? = some c ∧ c.first = 5 ∧
        edges.Perm [⟨8, 6, .valueN 1⟩, ⟨1, 6, .valueN 0⟩] ∧
        (edges.Pairwise fun a b => a.role.slot ≤ b.role.slot) ∧
        x.trailing = pairs.flatten ∧ List.Forall₂ (ScheduledPair crossedArms out chains 5) edges pairs := by
  have hscheduled : (fun r : Schedule.Report => (r.failure?, (linearize r.graph).result)) (Schedule.run crossedArms)
      = (none, .ok crossedArmsBlocks) := by cbv
  obtain ⟨hrun, hresult⟩ : _ ∧ _ := by simpa only [Prod.mk.injEq] using hscheduled
  have hlist := Outcome.eq_done hresult
  have hdistinct : ∀ merge ∈ crossedArms.find .merge, DistinctInflows crossedArms merge := by decide +kernel
  have hvalues : crossedArms.inputsNamed 6 .value = [⟨8, 6, .valueN 1⟩, ⟨1, 6, .valueN 0⟩] := by decide +kernel
  obtain ⟨chains, layout, -, -, -, hphi⟩ :=
    linearize_phi_predecessors crossedArms consistent_crossedArms hrun _ _ hlist fun _ => distinctInflows_of_find hdistinct
  obtain ⟨x, c, edges, pairs, hx, -, hc, hfirst, hperm, hascends, hfit, -, htrailing, hpairs⟩ :=
    hphi 6 5 (by decide +kernel) (by decide +kernel) (by rw [hvalues]; decide)
  rw [hvalues] at hperm hascends hfit
  exact ⟨consistent_crossedArms, hrun, _, hlist, chains, x, c, edges, pairs, hx, hc, hfirst, hperm,
    hascends (hfit (by decide)), htrailing, hpairs⟩

/-- The same arms under two numbers whose difference wraps, the lower one connected first. -/
def farArms : Graph :=
  .assemble [.start, .arg, .branch, .trace, .trace, .merge, .phi, .finish, .self]
    [⟨0, 2, .control⟩, ⟨1, 2, .condition⟩, ⟨2, 3, .ifTrue⟩, ⟨2, 4, .ifFalse⟩, ⟨3, 5, .controlN Int64.maxValue⟩,
      ⟨4, 5, .controlN (-2)⟩, ⟨5, 6, .control⟩, ⟨6, 7, .control⟩, ⟨1, 6, .valueN (-2)⟩, ⟨8, 6, .valueN Int64.maxValue⟩,
      ⟨6, 7, .value⟩]

def farArmsBlocks : List Block :=
  [[⟨"arg", 0, [], [], []⟩, conditional branchUnlessOp (.ofRegister 0) (.ofBlock 2)],
    [⟨"trace", noRegister, [], [], []⟩, ⟨"self", 1, [], [], []⟩, jumpTo (.ofBlock 3)],
    [⟨"trace", noRegister, [], [], []⟩],
    [⟨"phi", 2, [], [], [.ofBlock 1, .ofRegister 1, .ofBlock 2, .ofRegister 0]⟩,
      ⟨returnOp, noRegister, [], [2], []⟩]]

/-- The number of the argument is the lower one, but its pair is the last: the other number less this one wraps
    below zero, so the operand with the other number goes first. -/
theorem linearize_farArms_descends :
    farArms.Consistent ∧ (Schedule.run farArms).failure? = none ∧
      (∀ merge, farArms.op merge = .merge → DistinctInflows farArms merge) ∧
      farArms.op 6 = .phi ∧ farArms.phiMerge? 6 = some 5 ∧
      (∀ e ∈ farArms.inputsNamed 6 .value, e.role.index ≠ some (-1)) ∧ ∃ out,
        linearize (Schedule.run farArms).graph = .done out farArmsBlocks ∧
        ∀ x ∈ farArmsBlocks.flatten, x.op = opcode .phi → ∀ chains edges, ∀ pairs : List (List Operand),
          edges.Perm (farArms.inputsNamed 6 .value) → (edges.Pairwise fun a b => a.role.slot ≤ b.role.slot) →
          List.Forall₂ (ScheduledPair farArms out chains 5) edges pairs → x.trailing ≠ pairs.flatten := by
  have hevaluated : (fun r : Schedule.Report => (r.failure?, (linearize r.graph).result,
      registerOf (linearize r.graph).state 1)) (Schedule.run farArms) = (none, .ok farArmsBlocks, .ok 0) := by cbv
  obtain ⟨hrun, hresult, hregister⟩ : _ ∧ _ ∧ _ := by simpa only [Prod.mk.injEq] using hevaluated
  have hdistinct : ∀ merge ∈ farArms.find .merge, DistinctInflows farArms merge := by decide +kernel
  have hvalues : farArms.inputsNamed 6 .value = [⟨1, 6, .valueN (-2)⟩, ⟨8, 6, .valueN Int64.maxValue⟩] := by
    decide +kernel
  have hphi : ∀ x ∈ farArmsBlocks.flatten, x.op = opcode .phi →
      x.trailing = [.ofBlock 1, .ofRegister 1, .ofBlock 2, .ofRegister 0] := by decide +kernel
  refine ⟨Graph.consistent_assemble (by decide), hrun, fun merge => distinctInflows_of_find hdistinct,
    by decide +kernel, by decide +kernel, by rw [hvalues]; decide, _, Outcome.eq_done hresult, ?_⟩
  intro x hx hop chains edges pairs hperm hascends hpairs hflat
  -- In ascending order the argument is the first operand, and it is in register 0.
  rw [hvalues, List.perm_pair] at hperm
  rcases hperm with rfl | rfl
  case inr => exact absurd hascends (by decide)
  obtain _ | ⟨⟨-, -, b, -, r, -, -, -, -, -, -, hr, rfl⟩, -⟩ := hpairs
  obtain rfl : 0 = r := Except.ok.inj (hregister.symm.trans hr)
  rw [hphi x hx hop] at hflat
  have hfirst : some (Operand.ofRegister 1) = some (.ofRegister 0) := congrArg (fun operands => operands[1]?) hflat
  exact absurd hfirst (by decide)

end SeaOfNodes.Listing
