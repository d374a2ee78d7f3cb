/-
  SeaOfNodes.Proofs.Compile.DefinedBeforeUse

  No use before definition, from the description of a graph to its listing.  If the
  graph that is scheduled is in order, then a register is written before it is read on
  every path exactly if the values that several places share are well placed.  They are
  not always: a value used in one arm of a branch and behind the arms may be computed in
  that arm only.
-/
import SeaOfNodes.Compile
import SeaOfNodes.Proofs.Description.Build
import SeaOfNodes.Proofs.Listing.ControlFlow
import SeaOfNodes.Proofs.Listing.Placement
import SeaOfNodes.Proofs.Pass.Consistent

namespace SeaOfNodes.Compiler

open Listing Schedule

/-- The schedule of a graph after the passes. -/
def scheduled (c : Compiler) (g : Graph) : Graph := (Schedule.run (c.runPasses g).graph).graph

/-- A listing comes from a schedule and a linearization that succeeded. -/
theorem compile_eq_ok {c : Compiler} {g : Graph} {blocks : List Block} (h : c.compile g = .ok blocks) :
    (Schedule.run (c.runPasses g).graph).failure? = none ∧
      ∃ out, linearize (c.scheduled g) = .done out blocks := by
  unfold compile trace Trace.result at h
  cases herror : (c.runPasses g).error? with
  | some cause => simp [herror] at h
  | none =>
      cases hfailure : (Schedule.run (c.runPasses g).graph).failure? with
      | some cause => simp [herror, hfailure] at h
      | none =>
          simp only [herror, hfailure, Option.isSome_none, Bool.false_eq_true, if_false, Option.bind_some] at h
          exact ⟨rfl, _, Outcome.eq_done (mapError_eq_ok.1 h)⟩

/-- Conversely, what succeeds one by one compiles. -/
theorem compile_of_linearize {c : Compiler} {g : Graph} {blocks : List Block} (herror : (c.runPasses g).error? = none)
    (hrun : (Schedule.run (c.runPasses g).graph).failure? = none)
    (hlist : (linearize (Schedule.run (c.runPasses g).graph).graph).result = .ok blocks) :
    c.compile g = .ok blocks := by
  unfold compile trace Trace.result
  simp only [herror, hrun, Option.isSome_none, Bool.false_eq_true, if_false, Option.bind_some]
  rw [hlist]
  rfl

/-- There is one start, and it begins a block. -/
theorem exists_entry {s out : Graph} {order : NodeId → List NodeId} {chains : List Chain} {layout : Layout}
    {blocks : List Block} (h : FreshListing s out order chains layout blocks) :
    ∃ start entry, s.find .start = [start] ∧ s.op start = .start ∧ layout.index.lookup start = some entry := by
  obtain ⟨start, hstart⟩ := List.length_eq_one_iff.1 h.scheduled.oneStart
  have hmem : start ∈ s.find .start := by
    rw [hstart]
    exact List.mem_singleton_self start
  obtain ⟨hid, hop⟩ := List.mem_filter.1 hmem
  have hop : s.op start = .start := by simpa using hop
  have hfirst : start ∈ blockFirsts s := mem_blockFirsts.2 ⟨Graph.mem_ids.1 hid, by simp [Graph.beginsBlock, hop]⟩
  obtain ⟨entry, -, hentry, -⟩ := h.planned.exists_index hfirst
  exact ⟨start, entry, hstart, hop, hentry⟩

/-- The listing of a graph in order. -/
theorem freshListing_of_compile {c : Compiler} {g : Graph} (hg : g.Consistent) {blocks : List Block}
    (hcompile : c.compile g = .ok blocks) (hsize : (c.runPasses g).graph.arena.size < 2 ^ 63)
    (horder : (c.runPasses g).graph.InOrder) :
    ScheduledFrom (c.runPasses g).graph (c.scheduled g) ∧ ∃ out order chains layout,
      plan (c.scheduled g) = .ok (chains, layout) ∧
      FreshListing (c.scheduled g) out order chains layout blocks := by
  obtain ⟨hrun, out, hlist⟩ := compile_eq_ok hcompile
  have hpasses := Pass.consistent_runPasses c hg
  obtain ⟨hprogram, order, hscheduled⟩ := scheduled_of_run hpasses hrun
  obtain ⟨chains, layout, hplan, hlisted⟩ := listed_of_linearize hscheduled hlist
  have hfresh : ∀ id, ((c.scheduled g).props id).has Props.register = false := by
    intro id
    have hkey : Props.register ≠ Props.sequence := by decide
    rw [Props.has, scheduled, get?_props_run hrun hkey]
    exact horder.noRegister id
  have hsmall : (c.scheduled g).arena.size < 2 ^ 63 := by
    rw [scheduled, hprogram.size]
    exact hsize
  exact ⟨scheduledFrom_of_run hpasses horder hsize hrun, out, order, chains, layout, hplan,
    ⟨hlisted, hscheduled, hfresh, hsmall⟩⟩

/-- No use before definition.  Of a description that builds and a graph that compiles, in
    order when it is scheduled, the listing writes every register before it reads it, on
    every path from the block of the start, exactly if the shared values are well
    placed. -/
theorem compile_definesBeforeUse_iff (c : Compiler) (spec : Description.GraphSpec) (g : Graph)
    (hbuild : Description.build spec = .ok g) (blocks : List Block) (hcompile : c.compile g = .ok blocks)
    (hsize : (c.runPasses g).graph.arena.size < 2 ^ 63) (horder : (c.runPasses g).graph.InOrder) :
    ∃ chains layout start entry, plan (c.scheduled g) = .ok (chains, layout) ∧
      (c.scheduled g).find .start = [start] ∧ layout.index.lookup start = some entry ∧
      (DefinesBeforeUse blocks entry ↔ WellPlaced (c.scheduled g) chains layout blocks entry) := by
  obtain ⟨hfrom, out, order, chains, layout, hplan, hlisted⟩ :=
    freshListing_of_compile (Description.consistent_of_build hbuild) hcompile hsize horder
  obtain ⟨start, entry, hfind, hop, hentry⟩ := exists_entry hlisted
  exact ⟨chains, layout, start, entry, hplan, hfind, hentry, hlisted.definesBeforeUse_iff hfrom hop hentry⟩

/-! ## A shared value that is not well placed -/

/-- A node of a description without properties. -/
def node (op name : String) (inputs : List (String × String)) : Description.NodeSpec :=
  ⟨op, name, [], inputs.map fun input => ⟨input.1, input.2⟩⟩

/-- The diamond as it is written. -/
def diamondSpec : Description.GraphSpec :=
  ⟨"diamond", "", [node "start" "begin" [], node "arg" "x" [],
    node "branch" "choice" [("control", "begin"), ("condition", "x")], node "trace" "left" [("true", "choice")],
    node "trace" "right" [("false", "choice")], node "merge" "join" [("control(0)", "left"), ("control(1)", "right")],
    node "phi" "result" [("control", "join"), ("value(0)", "sum"), ("value(1)", "self")],
    node "finish" "end" [("control", "result"), ("value", "result")],
    node "add" "sum" [("value(0)", "x"), ("value(1)", "x")], node "self" "self" []]⟩

theorem build_diamondSpec : Description.build diamondSpec = .ok .diamond := by decide +kernel

/-- In the diamond the phi feeds the finish, and the argument is shared between the
    branch and one arm. -/
theorem compile_diamond_definesBeforeUse_iff :
    Description.build diamondSpec = .ok .diamond ∧
      compile ⟨[.deadCode, .noChoicePhis], false, 8⟩ .diamond = .ok diamondBlocks ∧
      ∃ chains layout start entry,
        plan (scheduled ⟨[.deadCode, .noChoicePhis], false, 8⟩ .diamond) = .ok (chains, layout) ∧
        (scheduled ⟨[.deadCode, .noChoicePhis], false, 8⟩ .diamond).find .start = [start] ∧
        layout.index.lookup start = some entry ∧
        (DefinesBeforeUse diamondBlocks entry ↔
          WellPlaced (scheduled ⟨[.deadCode, .noChoicePhis], false, 8⟩ .diamond) chains layout diamondBlocks
            entry) := by
  have hpasses : (runPasses ⟨[.deadCode, .noChoicePhis], false, 8⟩ .diamond).graph = .diamond := by decide +kernel
  have hcompile : compile ⟨[.deadCode, .noChoicePhis], false, 8⟩ .diamond = .ok diamondBlocks := by
    refine compile_of_linearize (by decide +kernel) ?_ ?_
    · rw [hpasses]
      exact run_diamond
    · rw [hpasses]
      exact linearize_diamond
  have horder : Graph.diamond.InOrder :=
    Graph.inOrder_of_adjacent Graph.consistent_diamond (by decide +kernel) (by decide +kernel)
  refine ⟨build_diamondSpec, hcompile, ?_⟩
  exact compile_definesBeforeUse_iff _ diamondSpec .diamond build_diamondSpec diamondBlocks hcompile
    (by rw [hpasses]; decide +kernel) (by rw [hpasses]; exact horder)

/-- An argument that is read in one arm of a branch and behind the arms. -/
def sharedArm : Description.GraphSpec :=
  ⟨"shared", "", [node "start" "begin" [], node "arg" "x" [], node "arg" "y" [],
    node "branch" "choice" [("control", "begin"), ("condition", "x")],
    node "safepoint" "left" [("true", "choice")], node "trace" "show" [("control", "left"), ("value", "y")],
    node "safepoint" "right" [("false", "choice")],
    node "merge" "join" [("control(0)", "show"), ("control(1)", "right")],
    node "finish" "end" [("control", "join"), ("value", "y")]]⟩

def sharedArmGraph : Graph :=
  .assemble [.start, .arg, .arg, .branch, .safepoint, .trace, .safepoint, .merge, .finish]
    [⟨0, 3, .control⟩, ⟨1, 3, .condition⟩, ⟨3, 4, .ifTrue⟩, ⟨4, 5, .control⟩, ⟨2, 5, .value⟩, ⟨3, 6, .ifFalse⟩,
      ⟨5, 7, .controlN 0⟩, ⟨6, 7, .controlN 1⟩, ⟨7, 8, .control⟩, ⟨2, 8, .value⟩]

theorem inOrder_sharedArmGraph : sharedArmGraph.InOrder := by
  have hconsistent : sharedArmGraph.Consistent := Graph.consistent_assemble (by decide)
  exact Graph.inOrder_of_adjacent hconsistent (by decide +kernel) (by decide +kernel)

/-- Its listing: the argument is fetched in the arm that reads it. -/
def sharedArmBlocks : List Block :=
  [[⟨"arg", 0, [], [], []⟩, conditional branchUnlessOp (.ofRegister 0) (.ofBlock 2)],
    [⟨"safepoint", noRegister, [], [], []⟩, ⟨"arg", 1, [], [], []⟩, ⟨"trace", noRegister, [], [1], []⟩,
      jumpTo (.ofBlock 3)],
    [⟨"safepoint", noRegister, [], [], []⟩], [⟨returnOp, noRegister, [], [1], []⟩]]

/-- The other arm falls through to the return, which reads a register that was not
    written. -/
theorem not_definesBeforeUse_sharedArmBlocks : ¬ DefinesBeforeUse sharedArmBlocks 0 := by
  intro hdefines
  have hstart : Reaches sharedArmBlocks 0 ⟨[0], ⟨"arg", 0, [], [], []⟩ ::
      [conditional branchUnlessOp (.ofRegister 0) (.ofBlock 2)], []⟩ := .start rfl
  have hbranch : Reaches sharedArmBlocks 0
      ⟨[0], [conditional branchUnlessOp (.ofRegister 0) (.ofBlock 2)], [0]⟩ := hstart.next rfl
  have harm : Reaches sharedArmBlocks 0 ⟨[2, 0], [⟨"safepoint", noRegister, [], [], []⟩], [0]⟩ :=
    hbranch.jump (t := 2) List.mem_cons_self rfl rfl
  have hend : Reaches sharedArmBlocks 0 ⟨[2, 0], [], [0]⟩ := harm.next rfl
  have hread := hdefines [3, 2, 0] ⟨returnOp, noRegister, [], [1], []⟩ [] [0] (hend.fall rfl) 1 (by decide)
  exact absurd hread (by decide)

/-- Its schedule and listing, made once for all that is read off them. -/
theorem linearize_sharedArm :
    (fun r : Schedule.Report => (r.failure?, (linearize r.graph).result, r.graph.find .start,
      (plan r.graph).map fun planned => planned.2.index.lookup 0)) (Schedule.run sharedArmGraph)
      = (none, .ok sharedArmBlocks, [0], .ok (some 0)) := by cbv

/-- The argument has to be written before it is read on every path, and is not. -/
theorem compile_sharedArm_uses_undefined :
    Description.build sharedArm = .ok sharedArmGraph ∧
      compile ⟨[], false, 8⟩ sharedArmGraph = .ok sharedArmBlocks ∧
      (runPasses ⟨[], false, 8⟩ sharedArmGraph).graph.InOrder ∧
      (∃ chains layout, plan (scheduled ⟨[], false, 8⟩ sharedArmGraph) = .ok (chains, layout) ∧
        (scheduled ⟨[], false, 8⟩ sharedArmGraph).find .start = [0] ∧ layout.index.lookup 0 = some 0) ∧
      ¬ DefinesBeforeUse sharedArmBlocks 0 := by
  obtain ⟨hrun, hlist, hstart, hindex⟩ : _ ∧ _ ∧ _ ∧ _ := by simpa only [Prod.mk.injEq] using linearize_sharedArm
  obtain ⟨⟨chains, layout⟩, hplan, hlookup⟩ := map_eq_ok.1 hindex
  exact ⟨by decide +kernel, compile_of_linearize rfl hrun hlist, inOrder_sharedArmGraph,
    ⟨chains, layout, hplan, hstart, hlookup⟩, not_definesBeforeUse_sharedArmBlocks⟩

end SeaOfNodes.Compiler
