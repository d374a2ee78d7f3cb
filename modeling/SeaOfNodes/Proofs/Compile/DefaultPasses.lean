/-
  SeaOfNodes.Proofs.Compile.DefaultPasses

  What the default passes leave dangling.  Dead code goes first, and after it every
  floating node is read.  The phis without a choice go next, and with one that nobody
  reads goes the only reader of its source: nothing sweeps again.  Lowering neither
  strands a node nor helps one that is stranded.
-/
import SeaOfNodes.Proofs.Compile.DefinedBeforeUse
import SeaOfNodes.Proofs.Pass.Dangling
import SeaOfNodes.Proofs.Pass.Lowering
import SeaOfNodes.Proofs.Schedule.Uses

namespace SeaOfNodes.Compiler

open Listing Schedule

theorem ofSettings_standard : ofSettings .standard .standard = .ok ⟨Pass.builtin, false, 8⟩ := by decide +kernel

/-- The default passes one after the other. -/
theorem runAll_builtin {g : Graph} (h : (Pass.runAll Pass.builtin g).failure? = none) :
    ∃ swept chosen lowered, Pass.DeadCode.run g = .ok swept ∧ Pass.NoChoice.run swept.graph = .ok chosen ∧
      Pass.Tagging.run chosen.graph = .ok lowered ∧ (Pass.runAll Pass.builtin g).graph = lowered.graph := by
  cases hswept : Pass.DeadCode.run g with
  | error cause => simp [Pass.builtin, Pass.runAll, Pass.run, hswept, Except.mapError] at h
  | ok swept =>
      cases hchosen : Pass.NoChoice.run swept.graph with
      | error cause => simp [Pass.builtin, Pass.runAll, Pass.run, hswept, hchosen, Except.mapError] at h
      | ok chosen =>
          cases hlowered : Pass.Tagging.run chosen.graph with
          | error cause => simp [Pass.builtin, Pass.runAll, Pass.run, hswept, hchosen, hlowered, Except.mapError] at h
          | ok lowered =>
              refine ⟨swept, chosen, lowered, rfl, hchosen, hlowered, ?_⟩
              simp [Pass.builtin, Pass.runAll, Pass.run, hswept, hchosen, hlowered, Except.mapError]

/-- Compilation stops at the schedule exactly if the schedule of what the passes left
    fails. -/
theorem compile_eq_schedule_error {c : Compiler} {g : Graph} (hpasses : (c.runPasses g).error? = none)
    {cause : Schedule.Failure} :
    c.compile g = .error (.schedule cause) ↔ (Schedule.run (c.runPasses g).graph).failure? = some cause := by
  unfold compile trace Trace.result
  cases hfailure : (Schedule.run (c.runPasses g).graph).failure? with
  | some other => simp [hpasses, hfailure]
  | none =>
      simp only [hpasses, hfailure, Option.isSome_none, Bool.false_eq_true, if_false, Option.bind_some, reduceCtorEq,
        iff_false]
      cases (linearize (Schedule.run (c.runPasses g).graph).graph).result <;> simp [Except.mapError]

/-- What the default passes leave dangling.  Nothing dangles once dead code is swept.
    In the end nothing does exactly if every floating node that is left when the phis
    are bypassed leads to a reader, itself or through bypassed phis.  Then scheduling
    does not fail for want of a consumer, and else it fails. -/
theorem default_passes_dangle_iff (spec : Description.GraphSpec) (g : Graph)
    (hbuild : Description.build spec = .ok g) (compiler : Compiler)
    (hdefault : ofSettings .standard .standard = .ok compiler)
    (hpasses : (compiler.runPasses g).error? = none) :
    ∃ swept chosen : Pass.Change, Pass.DeadCode.run g = .ok swept ∧
      Pass.NoChoice.run swept.graph = .ok chosen ∧
      swept.graph.NoneDangles ∧
      ((compiler.runPasses g).graph.NoneDangles ↔
        ∀ n, chosen.graph.has n = true → chosen.graph.isFloating n = true →
          ∃ m, Pass.Leads swept.graph chosen.graph.has n m) ∧
      ((compiler.runPasses g).graph.NoneDangles → ∀ label,
        compiler.compile g ≠ .error (.schedule ⟨some .anchors, .stuck (.noConsumers label)⟩)) ∧
      (¬ (compiler.runPasses g).graph.NoneDangles → ∃ cause, compiler.compile g = .error (.schedule cause)) := by
  obtain rfl : ⟨Pass.builtin, false, 8⟩ = compiler := Except.ok.inj (ofSettings_standard.symm.trans hdefault)
  have hfailure : (Pass.runAll Pass.builtin g).failure? = none := by
    simpa [runPasses, PassRun.error?] using hpasses
  obtain ⟨swept, chosen, lowered, hswept, hchosen, hlowered, hgraph⟩ := runAll_builtin hfailure
  have hfinal : (runPasses ⟨Pass.builtin, false, 8⟩ g).graph = lowered.graph := hgraph
  have hg := Description.consistent_of_build hbuild
  have hsweptConsistent : swept.graph.Consistent := Pass.DeadCode.consistent_sweep hswept hg
  have hchosenConsistent := Pass.NoChoice.consistent_run hchosen hsweptConsistent
  -- Lowering leaves what dangles as it is, so the sweep and the bypassed phis settle it.
  refine ⟨swept, chosen, hswept, hchosen, ?_, ?_, fun hread label => ?_, fun hdangles => ?_⟩
  · exact Pass.DeadCode.noneDangles_run hswept hg (Description.unscheduled_of_build hbuild).1
  · rw [hfinal, (Pass.Tagging.lowers_run hchosenConsistent hlowered).1.noneDangles_iff]
    exact Pass.NoChoice.noneDangles_iff hchosen hsweptConsistent
  · rw [ne_eq, compile_eq_schedule_error hpasses]
    exact run_ne_noConsumers hread label
  · have hfails : (Schedule.run (runPasses ⟨Pass.builtin, false, 8⟩ g).graph).failure? ≠ none :=
      fun hnone => hdangles (noneDangles_of_run hnone)
    obtain ⟨cause, hcause⟩ := Option.ne_none_iff_exists'.1 hfails
    exact ⟨cause, (compile_eq_schedule_error hpasses).2 hcause⟩

/-! ## A phi that is read, and one that is not -/

/-- A phi that chooses between copies of one argument, and a return that may read it. -/
def phiOfOne (uses : List (String × String)) : Description.GraphSpec :=
  ⟨"one", "", [node "start" "begin" [], node "arg" "x" [], node "merge" "join" [("control(0)", "begin")],
    node "phi" "same" [("control", "join"), ("value(0)", "x")], node "finish" "end" (("control", "join") :: uses)]⟩

def phiOfOneGraph (uses : List Edge) : Graph :=
  .assemble [.start, .arg, .merge, .phi, .finish]
    ([⟨0, 2, .controlN 0⟩, ⟨2, 3, .control⟩, ⟨1, 3, .valueN 0⟩, ⟨2, 4, .control⟩] ++ uses)

/-- Where the phi is read its reader reads the argument in the end. -/
theorem default_passes_readPhi :
    Description.build (phiOfOne [("value", "same")]) = .ok (phiOfOneGraph [⟨3, 4, .value⟩]) ∧
      ofSettings .standard .standard = .ok ⟨Pass.builtin, false, 8⟩ ∧
      (runPasses ⟨Pass.builtin, false, 8⟩ (phiOfOneGraph [⟨3, 4, .value⟩])).error? = none ∧
      (∃ swept chosen : Pass.Change, Pass.DeadCode.run (phiOfOneGraph [⟨3, 4, .value⟩]) = .ok swept ∧
        Pass.NoChoice.run swept.graph = .ok chosen ∧
        ∀ n, chosen.graph.has n = true → chosen.graph.isFloating n = true →
          ∃ m, Pass.Leads swept.graph chosen.graph.has n m) ∧
      ∀ label, compile ⟨Pass.builtin, false, 8⟩ (phiOfOneGraph [⟨3, 4, .value⟩])
        ≠ .error (.schedule ⟨some .anchors, .stuck (.noConsumers label)⟩) := by
  have hbuild : Description.build (phiOfOne [("value", "same")]) = .ok (phiOfOneGraph [⟨3, 4, .value⟩]) := by decide +kernel
  have hpasses : (runPasses ⟨Pass.builtin, false, 8⟩ (phiOfOneGraph [⟨3, 4, .value⟩])).error? = none := by decide +kernel
  have hread : (runPasses ⟨Pass.builtin, false, 8⟩ (phiOfOneGraph [⟨3, 4, .value⟩])).graph.NoneDangles :=
    Graph.noneDangles_iff_all.2 (by decide +kernel)
  obtain ⟨swept, chosen, hswept, hchosen, -, hiff, hnever, -⟩ :=
    default_passes_dangle_iff _ _ hbuild _ ofSettings_standard hpasses
  exact ⟨hbuild, ofSettings_standard, hpasses, ⟨swept, chosen, hswept, hchosen, hiff.1 hread⟩, hnever hread⟩

/-- Where it is not the argument is left without a reader, although the graph can be
    compiled as it is. -/
theorem default_passes_unreadPhi_dangle :
    Description.build (phiOfOne []) = .ok (phiOfOneGraph []) ∧
      ofSettings .standard .standard = .ok ⟨Pass.builtin, false, 8⟩ ∧
      (∃ blocks, compile ⟨[], false, 8⟩ (phiOfOneGraph []) = .ok blocks) ∧
      (runPasses ⟨Pass.builtin, false, 8⟩ (phiOfOneGraph [])).error? = none ∧
      ¬ (runPasses ⟨Pass.builtin, false, 8⟩ (phiOfOneGraph [])).graph.NoneDangles ∧
      compile ⟨Pass.builtin, false, 8⟩ (phiOfOneGraph [])
        = .error (.schedule ⟨some .anchors, .stuck (.noConsumers ⟨1, .arg⟩)⟩) := by
  have hbuild : Description.build (phiOfOne []) = .ok (phiOfOneGraph []) := by decide +kernel
  have hplain : compile ⟨[], false, 8⟩ (phiOfOneGraph [])
      = .ok [[⟨"arg", 0, [], [], []⟩], [⟨"phi", 1, [], [], [.ofBlock 0, .ofRegister 0]⟩,
        ⟨returnOp, noRegister, [], [], []⟩]] := by cbv
  have hpasses : (runPasses ⟨Pass.builtin, false, 8⟩ (phiOfOneGraph [])).error? = none := by decide +kernel
  have hdangles : ¬ (runPasses ⟨Pass.builtin, false, 8⟩ (phiOfOneGraph [])).graph.NoneDangles := by
    rw [Graph.noneDangles_iff_all, Bool.not_eq_true]
    decide +kernel
  have hfailure : (Schedule.run (runPasses ⟨Pass.builtin, false, 8⟩ (phiOfOneGraph [])).graph).failure?
      = some ⟨some .anchors, .stuck (.noConsumers ⟨1, .arg⟩)⟩ := by cbv
  exact ⟨hbuild, ofSettings_standard, ⟨_, hplain⟩, hpasses, hdangles, (compile_eq_schedule_error hpasses).2 hfailure⟩

end SeaOfNodes.Compiler
