/-
  SeaOfNodes.Proofs.Compile.KeptOperands

  What the listing keeps of the values and constants that a node is given.  An
  instruction reads the operands of its node and has its constants as immediates; but
  an edge that is no operand of the node's operation is not read, and the transfer that
  stands for a branch has neither its constants nor any value besides the condition.
-/
import SeaOfNodes.Proofs.Compile.DefinedBeforeUse
import SeaOfNodes.Proofs.Listing.Conservation

namespace SeaOfNodes.Listing

open Schedule

/-! ## Constants -/

theorem immediates_assignRegisters (g : Graph) (chains : List Chain) (id : NodeId) :
    immediates (assignRegisters g chains) id = immediates g id := by
  refine List.filterMap_congr fun key hkey => ?_
  refine get?_props_numberNodes ?_ g _ _ id
  rintro rfl
  exact absurd hkey (by decide)

/-! ## Finished instructions -/

/-- What the finished instruction of a node has of the node: the registers of its
    operands and, unless it is a branch, its constants. -/
structure Kept (s out : Graph) (id : NodeId) (x : Instr) : Prop where
  registers : ∀ r, r ∈ registersRead x ↔ ∃ e ∈ s.inputs id, IsOperand s id e ∧ registerOf out e.source = .ok r
  constants : x.imms = if s.op id = .branch then [] else immediates s id

/-- An instruction reads every value that its node is given, and has all constants of
    the node as immediates, in their order. -/
structure DropsNothing (s out : Graph) (id : NodeId) (x : Instr) : Prop where
  values : ∀ e ∈ s.inputs id, e.role.isValue = true → ∃ r ∈ registersRead x, registerOf out e.source = .ok r
  constants : (immediates s id).Sublist x.imms

/-- An instruction drops nothing exactly if every value comes in a register that an
    operand comes in too, and a branch has no constants. -/
theorem Kept.dropsNothing_iff {s out : Graph} {id : NodeId} {x : Instr} (h : Kept s out id x) :
    DropsNothing s out id x ↔
      (∀ e ∈ s.inputs id, e.role.isValue = true → ∃ operand ∈ s.inputs id, IsOperand s id operand ∧
        ∃ r, registerOf out e.source = .ok r ∧ registerOf out operand.source = .ok r) ∧
      (s.op id = .branch → immediates s id = []) := by
  constructor
  · rintro ⟨hvalues, hconstants⟩
    constructor
    · intro e he hvalue
      obtain ⟨r, hr, hregister⟩ := hvalues e he hvalue
      obtain ⟨operand, hmem, hoperand, hregister'⟩ := (h.registers r).1 hr
      exact ⟨operand, hmem, hoperand, r, hregister, hregister'⟩
    · intro hbranch
      rw [h.constants, if_pos hbranch] at hconstants
      exact List.sublist_nil.1 hconstants
  · rintro ⟨hvalues, hconstants⟩
    constructor
    · intro e he hvalue
      obtain ⟨operand, hmem, hoperand, r, hregister, hregister'⟩ := hvalues e he hvalue
      exact ⟨r, (h.registers r).2 ⟨operand, hmem, hoperand, hregister'⟩, hregister⟩
    · rw [h.constants]
      split
      · rename_i hbranch
        rw [hconstants hbranch]
      · exact List.Sublist.refl _

/-- Where every branch ends its block, the finished instruction of a node keeps what
    the node is given. -/
theorem StandsFor.kept {g : Graph} {chains : List Chain} {layout : Layout} {c : Chain} {id : NodeId} {x : Instr}
    (h : StandsFor (assignRegisters g chains) layout c id x)
    (hlast : g.op id = .branch → c.nodes.getLast? = some id) : Kept g (assignRegisters g chains) id x := by
  have hagree := agree_assignRegisters g chains
  have hsupplies : ∀ r, Supplies (assignRegisters g chains) id (IsOperand (assignRegisters g chains) id) r ↔
      ∃ e ∈ g.inputs id, IsOperand g id e ∧ registerOf (assignRegisters g chains) e.source = .ok r := by
    intro r
    simp only [Supplies, isOperand_assignRegisters, hagree.inputs_eq]
  cases h with
  | emitted hemits hplace =>
      rw [hagree.op] at hplace
      have hbranch : g.op id ≠ .branch := fun hop => hplace hop (hlast hop)
      refine ⟨fun r => ?_, ?_⟩
      · rw [hemits.mem_registersRead (by rwa [hagree.op]), hsupplies]
      · rw [if_neg hbranch, hemits.imms_eq, immediates_assignRegisters]
  | @decides op condition register index hop _ _ hcondition hregister =>
      refine ⟨fun r => ?_, ?_⟩
      · rw [registersRead_conditional, List.mem_singleton, supplies_of_condition hop hcondition hregister,
          hsupplies]
      · rw [hagree.op] at hop
        rw [if_pos hop]
        rfl

end SeaOfNodes.Listing

namespace SeaOfNodes.Compiler

open Listing Schedule

/-- In a scheduled graph every branch ends its block. -/
theorem getLast?_of_branch {s out : Graph} {order : NodeId → List NodeId} (hs : Scheduled s order)
    {chains : List Chain} {layout : Layout} {blocks : List Block}
    (h : Listed s order out chains layout blocks) {i : Nat} {c : Chain} (hc : chains[i]? = some c)
    {id : NodeId} (hid : id ∈ c.nodes) (hop : s.op id = .branch) : c.nodes.getLast? = some id := by
  obtain ⟨body, raw, hbody, -, -⟩ := h.block i c hc
  obtain ⟨before, after, hsplit⟩ := List.append_of_mem hid
  obtain ⟨rfl, -⟩ := nil_after_branch hs h.agree (h.planned.chainOf c (List.mem_of_getElem? hc)) hbody hsplit hop
  rw [hsplit]
  simp

/-- What a listing keeps of the values and constants of the scheduled graph.  The
    instruction of a node reads the registers of the node's operands and no others, and
    has the node's constants as immediates unless it is a branch; so it drops nothing
    exactly if all values are supplied by operands and a branch has no constants. -/
theorem compile_drops_nothing_iff (compiler : Compiler) (spec : Description.GraphSpec) (g : Graph)
    (hbuild : Description.build spec = .ok g) (blocks : List Block)
    (hcompile : compiler.compile g = .ok blocks) :
    ∃ out chains layout, linearize (compiler.scheduled g) = .done out blocks ∧
      plan (compiler.scheduled g) = .ok (chains, layout) ∧
      ∀ id, (compiler.scheduled g).has id = true → (compiler.scheduled g).op id ≠ .start →
        (compiler.scheduled g).op id ≠ .merge →
        ∃ x, instrAt blocks (place (compiler.scheduled g) chains id) = some x ∧
          Kept (compiler.scheduled g) out id x ∧
          (DropsNothing (compiler.scheduled g) out id x ↔
            (∀ e ∈ (compiler.scheduled g).inputs id, e.role.isValue = true →
              ∃ operand ∈ (compiler.scheduled g).inputs id, IsOperand (compiler.scheduled g) id operand ∧
                ∃ r, registerOf out e.source = .ok r ∧ registerOf out operand.source = .ok r) ∧
            ((compiler.scheduled g).op id = .branch → immediates (compiler.scheduled g) id = [])) := by
  obtain ⟨hrun, out, hlist⟩ := compile_eq_ok hcompile
  have hpasses := Pass.consistent_runPasses compiler (Description.consistent_of_build hbuild)
  obtain ⟨-, order, hs⟩ := scheduled_of_run hpasses hrun
  obtain ⟨chains, layout, hplan, hlaid⟩ := laid_of_linearize hs.consistent hlist
  obtain ⟨chains', layout', hplan', hlisted⟩ := listed_of_linearize hs hlist
  -- Both views of the listing are of the one plan that was made.
  obtain ⟨rfl, rfl⟩ : chains = chains' ∧ layout = layout' := by
    have hsame := hplan.symm.trans hplan'
    exact ⟨congrArg Prod.fst (Except.ok.inj hsame), congrArg Prod.snd (Except.ok.inj hsame)⟩
  refine ⟨out, chains, layout, hlist, hplan, fun id hid hstart hmerge => ?_⟩
  obtain ⟨c, x, hc, hmem, hx, hstands⟩ := hlaid.instrAt_place hid (mem_emits.2 ⟨hstart, hmerge⟩)
  rw [hlaid.out_eq] at hstands
  have hkept := hstands.kept fun hop => getLast?_of_branch hs hlisted hc hmem hop
  rw [← hlaid.out_eq] at hkept
  exact ⟨x, hx, hkept, hkept.dropsNothing_iff⟩

/-- The sum of the diamond is given the argument twice, and its instruction reads what
    it is given. -/
theorem compile_diamond_drops_nothing :
    Description.build diamondSpec = .ok .diamond ∧ compile ⟨[], false, 8⟩ .diamond = .ok diamondBlocks ∧
      ∃ out chains layout, linearize (scheduled ⟨[], false, 8⟩ .diamond) = .done out diamondBlocks ∧
        plan (scheduled ⟨[], false, 8⟩ .diamond) = .ok (chains, layout) ∧
        ∃ x, instrAt diamondBlocks (place (scheduled ⟨[], false, 8⟩ .diamond) chains 8) = some x ∧
          Kept (scheduled ⟨[], false, 8⟩ .diamond) out 8 x := by
  have hcompile : compile ⟨[], false, 8⟩ .diamond = .ok diamondBlocks :=
    compile_of_linearize rfl run_diamond linearize_diamond
  obtain ⟨out, chains, layout, hlist, hplan, hnodes⟩ :=
    compile_drops_nothing_iff ⟨[], false, 8⟩ diamondSpec .diamond build_diamondSpec diamondBlocks hcompile
  have hop : (scheduled ⟨[], false, 8⟩ .diamond).op 8 = .add := by
    refine ((scheduled_of_run Graph.consistent_diamond run_diamond).1.op 8).trans ?_
    decide +kernel
  have hlive := Graph.has_of_op_ne_invalid (by rw [hop]; decide)
  obtain ⟨x, hx, hkept, -⟩ := hnodes 8 hlive (by simp [hop]) (by simp [hop])
  exact ⟨build_diamondSpec, hcompile, out, chains, layout, hlist, hplan, x, hx, hkept⟩

/-! ## A branch that drops what it is given -/

/-- A branch that has a line and is given a value besides its condition. -/
def crowdedBranch : Description.GraphSpec :=
  ⟨"crowded", "", [node "start" "begin" [], node "arg" "x" [], node "arg" "y" [],
    ⟨"branch", "choice", [("line", .ofInt 7)], [⟨"control", "begin"⟩, ⟨"condition", "x"⟩, ⟨"value", "y"⟩]⟩,
    node "safepoint" "left" [("true", "choice")], node "safepoint" "right" [("false", "choice")],
    node "merge" "join" [("control(0)", "left"), ("control(1)", "right")], node "finish" "end" [("control", "join")]]⟩

def crowdedBranchGraph : Graph :=
  (Graph.assemble [.start, .arg, .arg, .branch, .safepoint, .safepoint, .merge, .finish]
    [⟨0, 3, .control⟩, ⟨1, 3, .condition⟩, ⟨2, 3, .value⟩, ⟨3, 4, .ifTrue⟩, ⟨3, 5, .ifFalse⟩,
      ⟨4, 6, .controlN 0⟩, ⟨5, 6, .controlN 1⟩, ⟨6, 7, .control⟩]).setProp 3 Props.line (.int 7)

/-- Its listing: the value is computed and then read by nothing. -/
def crowdedBranchBlocks : List Block :=
  [[⟨"arg", 0, [], [], []⟩, ⟨"arg", 1, [], [], []⟩, conditional branchUnlessOp (.ofRegister 0) (.ofBlock 2)],
    [⟨"safepoint", noRegister, [], [], []⟩, jumpTo (.ofBlock 3)], [⟨"safepoint", noRegister, [], [], []⟩],
    [⟨returnOp, noRegister, [], [], []⟩]]

/-- The transfer that stands for the branch has neither its line nor the value. -/
theorem compile_crowdedBranch_drops :
    Description.build crowdedBranch = .ok crowdedBranchGraph ∧
      compile ⟨[], false, 8⟩ crowdedBranchGraph = .ok crowdedBranchBlocks ∧
      ∃ out chains layout, linearize (scheduled ⟨[], false, 8⟩ crowdedBranchGraph) = .done out crowdedBranchBlocks ∧
        plan (scheduled ⟨[], false, 8⟩ crowdedBranchGraph) = .ok (chains, layout) ∧
        (scheduled ⟨[], false, 8⟩ crowdedBranchGraph).op 3 = .branch ∧
        ∃ x, instrAt crowdedBranchBlocks (place (scheduled ⟨[], false, 8⟩ crowdedBranchGraph) chains 3) = some x ∧
          ¬ DropsNothing (scheduled ⟨[], false, 8⟩ crowdedBranchGraph) out 3 x := by
  -- The schedule is made once for all that is read off it.
  have hscheduled : (fun r : Schedule.Report => (r.failure?, (linearize r.graph).result, r.graph.op 3,
      immediates r.graph 3, (plan r.graph).map fun planned => place r.graph planned.1 3))
      (Schedule.run crowdedBranchGraph) = (none, .ok crowdedBranchBlocks, .branch, [.int 7], .ok (0, 2)) := by cbv
  obtain ⟨hrun, hresult, hop, hline, hplace⟩ : _ ∧ _ ∧ _ ∧ _ ∧ _ := by simpa only [Prod.mk.injEq] using hscheduled
  have hcompile : compile ⟨[], false, 8⟩ crowdedBranchGraph = .ok crowdedBranchBlocks :=
    compile_of_linearize rfl hrun hresult
  obtain ⟨-, out, hlist⟩ := compile_eq_ok hcompile
  obtain ⟨⟨chains, layout⟩, hplan, hplace⟩ := map_eq_ok.1 hplace
  refine ⟨by decide +kernel, hcompile, out, chains, layout, hlist, hplan, hop,
    conditional branchUnlessOp (.ofRegister 0) (.ofBlock 2), ?_, ?_⟩
  · change place (scheduled ⟨[], false, 8⟩ crowdedBranchGraph) chains 3 = (0, 2) at hplace
    rw [hplace]
    rfl
  · intro hdrops
    have hsub := hdrops.constants
    change immediates (scheduled ⟨[], false, 8⟩ crowdedBranchGraph) 3 = [.int 7] at hline
    rw [hline] at hsub
    exact absurd hsub (by simp [conditional])

end SeaOfNodes.Compiler
