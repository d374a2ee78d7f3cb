/-
  SeaOfNodes.Proofs.Compile.LoweredSchedule

  What lowering does to a graph that can be scheduled.  Control is in order still and
  no node is left without a reader, so two of the three phases of scheduling have
  nothing new to object to.  The conversions are another matter: one that only the first
  node of a block reads would be anchored to that node, and then the block cannot begin
  with it.
-/
import SeaOfNodes.Proofs.Compile.DefinedBeforeUse
import SeaOfNodes.Proofs.Pass.LoweredBlocks
import SeaOfNodes.Proofs.Pass.LoweredOrder
import SeaOfNodes.Proofs.Schedule.Uses

namespace SeaOfNodes.Compiler

open Listing Schedule Pass.Tagging

/-- A graph in which a conversion hangs at the beginning of a block is not scheduled. -/
theorem not_hanging_of_run {g : Graph} (hg : g.Consistent) (h : (Schedule.run g).failure? = none) : ¬ Hanging g := by
  rintro ⟨e, hheads, hloose⟩
  have hfloating : g.isFixed e.source = false := by
    rw [← Bool.not_eq_true, hg.isFixed_iff, not_or]
    refine ⟨?_, hloose.free⟩
    rcases hloose.conversion with hop | ⟨hop, -⟩
    · rw [hop]
      decide
    · rw [hop]
      decide
  have hinput := hg.mem_inputs (Graph.multiplicity_pos.1 hheads.edge)
  obtain ⟨site, hsite, hne⟩ := exists_other_use_of_run hg h hinput hheads.value hheads.begins hfloating
  -- Every use of the conversion is at the one node that reads it, which is no phi.
  obtain ⟨x, hx, rfl⟩ := List.mem_map.1 hsite
  have hx := List.mem_of_mem_filter hx
  have hsource := hg.source_eq _ x hx
  have htarget := hloose.only x (Graph.multiplicity_pos.2 (by rw [hsource]; exact hx)) hsource
  refine hne ?_
  rw [Graph.useSite_eq_target (by rw [htarget]; exact hheads.op), htarget]

/-- An addition that begins a block is exposed: it has operands. -/
theorem exposed_of_beginsBlock {g : Graph} (hg : g.Consistent) {add : NodeId} (hadd : g.op add = .fixnumAdd)
    (hoperands : (g.inputsWhere add Role.isValue).length = 2) (hbegins : g.beginsBlock add = true) :
    ∃ e, Exposed g add e := by
  obtain ⟨e, he⟩ := List.exists_mem_of_length_pos (l := g.inputsWhere add Role.isValue) (by omega)
  obtain ⟨htarget, hvalue⟩ := mem_inputsWhere_isValue hg e he
  have hpos := Graph.multiplicity_pos.2 (hg.mem_outputs (List.mem_of_mem_filter he))
  refine ⟨e, ⟨hpos, hvalue, ?_, ?_⟩, .inl htarget⟩
  · rw [htarget]
    exact hbegins
  · rw [htarget, hadd]
    decide

/-- So is one that the first node of a block reads, if control does not leave it. -/
theorem exposed_of_mem_consumers {g : Graph} (hg : g.Consistent) {add reader : NodeId}
    (hfree : g.hasControlOutput add = false) (hreader : reader ∈ g.consumers add) (hphi : g.op reader ≠ .phi)
    (hbegins : g.beginsBlock reader = true) : ∃ e, Exposed g add e := by
  obtain ⟨role, hvalue, hpos⟩ := hg.mem_consumers.1 hreader
  refine ⟨⟨add, reader, role⟩, ⟨hpos, hvalue, hbegins, hphi⟩, .inr ⟨rfl, ?_⟩⟩
  rw [← hg.hasControlOutput_iff, hfree]
  exact Bool.false_ne_true

/-- No addition begins a block, and the first node of a block reads none that control does
    not leave, unless it is a phi. -/
def AddsApart (g : Graph) : Prop :=
  ∀ add, g.op add = .fixnumAdd → g.beginsBlock add = false ∧
    (g.hasControlOutput add = false → ∀ reader ∈ g.consumers add, g.op reader ≠ .phi → g.beginsBlock reader = false)

/-- If the lowered graph can be scheduled no addition was exposed. -/
theorem addsApart_of_run {g : Graph} (hg : g.Consistent) {r : Pass.Change} (hlower : Pass.Tagging.run g = .ok r)
    (hrun : (Schedule.run r.graph).failure? = none) : AddsApart g := by
  intro add hadd
  have hnot : ¬ ∃ e, Exposed g add e := fun hexposed =>
    not_hanging_of_run (lowers_run hg hlower).2.1 hrun (hanging_of_run hg hadd hexposed hlower)
  refine ⟨?_, fun hfree reader hreader hphi => ?_⟩
  · rw [← Bool.not_eq_true]
    intro hbegins
    have hoperands := (Pass.Tagging.run_phases hlower).1 add ((Graph.mem_find_iff (by decide)).2 hadd)
    exact hnot (exposed_of_beginsBlock hg hadd hoperands hbegins)
  · rw [← Bool.not_eq_true]
    intro hbegins
    exact hnot (exposed_of_mem_consumers hg hfree hreader hphi hbegins)

/-- What is left of a schedule when the graph is lowered.  All values are read and the
    fixed nodes can be numbered, so that only placing the nodes or putting them in
    blocks may fail, and that not for want of a use.  If it does not fail, then no
    addition began a block, and the first node of a block read none that control does
    not leave. -/
theorem schedule_of_lowered (spec : Description.GraphSpec) (g : Graph) (hbuild : Description.build spec = .ok g)
    (hsequence : ∀ id ∈ g.ids, (g.props id).has Props.sequence = false) (hschedule : (Schedule.run g).failure? = none)
    (r : Pass.Change) (hlower : Pass.Tagging.run g = .ok r) :
    r.graph.NoneDangles ∧
      (∀ f, (Schedule.run r.graph).failure? = some f →
        (f.phase? = some .anchors ∧ f.cause.isUnused = false) ∨ f.phase? = some .chains) ∧
      ((Schedule.run r.graph).failure? = none → ∀ add, g.op add = .fixnumAdd →
        g.beginsBlock add = false ∧
          (g.hasControlOutput add = false → ∀ reader ∈ g.consumers add, g.op reader ≠ .phi →
            g.beginsBlock reader = false)) := by
  have hg := Description.consistent_of_build hbuild
  obtain ⟨hroles, hstart⟩ := Description.unscheduled_of_build hbuild
  obtain ⟨hlowers, hconsistent, -⟩ := lowers_run hg hlower
  obtain ⟨numbered, -, -, -, hnumbered, -, -, -⟩ := Schedule.run_phases hschedule
  obtain ⟨ordered, hordered⟩ := hlowers.orderFixed hconsistent (orderable_of_orderFixed hg hsequence hnumbered)
  -- What the steps of lowering keep is all that the early checks ask for.
  have hread : r.graph.NoneDangles := hlowers.noneDangles_iff.2 (noneDangles_of_run hschedule)
  have hcheck := hlowers.checkSchedulable hconsistent hroles hstart
  refine ⟨hread, fun f hf => ?_, addsApart_of_run hg hlower⟩
  exact (phase_of_run hcheck hordered hf).imp_left fun hphase => ⟨hphase, isUnused_of_run hread hf hphase⟩

/-! ## A sum before a branch, and one behind it -/

/-- A sum is computed before a branch, and one arm reads it. -/
def sumBefore : Description.GraphSpec :=
  ⟨"before", "", [node "start" "begin" [], node "arg" "x" [],
    node "fixnum_add" "sum" [("control", "begin"), ("value(0)", "x"), ("value(1)", "x")],
    node "branch" "choice" [("control", "sum"), ("condition", "x")],
    node "trace" "show" [("true", "choice"), ("value", "sum")], node "finish" "end" [("control", "show")],
    node "finish" "other" [("false", "choice")]]⟩

def sumBeforeGraph : Graph :=
  .assemble [.start, .arg, .fixnumAdd, .branch, .trace, .finish, .finish]
    [⟨0, 2, .control⟩, ⟨1, 2, .valueN 0⟩, ⟨1, 2, .valueN 1⟩, ⟨2, 3, .control⟩, ⟨1, 3, .condition⟩, ⟨3, 4, .ifTrue⟩,
      ⟨2, 4, .value⟩, ⟨4, 5, .control⟩, ⟨3, 6, .ifFalse⟩]

/-- Its tag is computed before the branch too. -/
theorem schedule_of_lowered_sumBefore :
    Description.build sumBefore = .ok sumBeforeGraph ∧
      (∀ id ∈ sumBeforeGraph.ids, (sumBeforeGraph.props id).has Props.sequence = false) ∧
      (Schedule.run sumBeforeGraph).failure? = none ∧
      ∃ r, Pass.Tagging.run sumBeforeGraph = .ok r ∧ (Schedule.run r.graph).failure? = none ∧
        r.graph.NoneDangles ∧ sumBeforeGraph.op 2 = .fixnumAdd ∧ sumBeforeGraph.beginsBlock 2 = false := by
  have hbuild : Description.build sumBefore = .ok sumBeforeGraph := by decide +kernel
  have hsequence : ∀ id ∈ sumBeforeGraph.ids, (sumBeforeGraph.props id).has Props.sequence = false := by
    decide +kernel
  have hschedule : (Schedule.run sumBeforeGraph).failure? = none := by cbv
  have hlowered : (Pass.Tagging.run sumBeforeGraph).map (fun r => (Schedule.run r.graph).failure?) = .ok none := by cbv
  obtain ⟨r, hlower, hrun⟩ := map_eq_ok.1 hlowered
  obtain ⟨hread, -, hlate⟩ := schedule_of_lowered sumBefore sumBeforeGraph hbuild hsequence hschedule r hlower
  exact ⟨hbuild, hsequence, hschedule, r, hlower, hrun, hread, rfl, (hlate hrun 2 rfl).1⟩

/-- A sum is the first that is computed in one arm of a branch. -/
def sumInArm : Description.GraphSpec :=
  ⟨"arm", "", [node "start" "begin" [], node "arg" "x" [],
    node "branch" "choice" [("control", "begin"), ("condition", "x")],
    node "fixnum_add" "sum" [("true", "choice"), ("value(0)", "x"), ("value(1)", "x")],
    node "finish" "end" [("control", "sum"), ("value", "sum")], node "finish" "other" [("false", "choice")]]⟩

def sumInArmGraph : Graph :=
  .assemble [.start, .arg, .branch, .fixnumAdd, .finish, .finish]
    [⟨0, 2, .control⟩, ⟨1, 2, .condition⟩, ⟨2, 3, .ifTrue⟩, ⟨1, 3, .valueN 0⟩, ⟨1, 3, .valueN 1⟩, ⟨3, 4, .control⟩,
      ⟨3, 4, .value⟩, ⟨2, 5, .ifFalse⟩]

/-- It compiles as it is, but once it is lowered its operands would have to come before
    the node that begins the arm. -/
theorem compile_sumInArm_lowered_fails :
    Description.build sumInArm = .ok sumInArmGraph ∧
      (∀ id ∈ sumInArmGraph.ids, (sumInArmGraph.props id).has Props.sequence = false ∧
        (sumInArmGraph.props id).has Props.register = false) ∧
      (∃ blocks, compile ⟨[], false, 8⟩ sumInArmGraph = .ok blocks) ∧
      ∃ r, Pass.Tagging.run sumInArmGraph = .ok r ∧
        (Schedule.run r.graph).failure? = some ⟨some .chains, .blockOrder (.dependentFirst ⟨9, .int64Add⟩)⟩ := by
  have hbuild : Description.build sumInArm = .ok sumInArmGraph := by decide +kernel
  have hpreset : ∀ id ∈ sumInArmGraph.ids, (sumInArmGraph.props id).has Props.sequence = false ∧
      (sumInArmGraph.props id).has Props.register = false := by decide +kernel
  have hplain : compile ⟨[], false, 8⟩ sumInArmGraph
      = .ok [[⟨"arg", 0, [], [], []⟩, conditional branchUnlessOp (.ofRegister 0) (.ofBlock 2)],
        [⟨"fixnum_add", 1, [], [0, 0], []⟩, ⟨returnOp, noRegister, [], [1], []⟩],
        [⟨returnOp, noRegister, [], [], []⟩]] := by cbv
  have hlowered : (Pass.Tagging.run sumInArmGraph).map (fun r => (Schedule.run r.graph).failure?)
      = .ok (some ⟨some .chains, .blockOrder (.dependentFirst ⟨9, .int64Add⟩)⟩) := by cbv
  obtain ⟨r, hlower, hrun⟩ := map_eq_ok.1 hlowered
  exact ⟨hbuild, hpreset, ⟨_, hplain⟩, r, hlower, hrun⟩

end SeaOfNodes.Compiler
