/-
  SeaOfNodes.Proofs.Pass.Unannotated

  Passes leave to scheduling what is its own.  A graph that is fit to be scheduled has one
  start, and neither an edge of a schedule nor a number; no pass takes the start away or
  makes another, and no pass writes what scheduling will write.
-/
import SeaOfNodes.Proofs.Description.Build
import SeaOfNodes.Proofs.Pass.Kept

namespace SeaOfNodes.Graph

/-- A consistent graph with one start that no schedule was written into. -/
structure Unannotated (g : Graph) : Prop where
  consistent : g.Consistent
  roles : g.Unscheduled
  oneStart : (g.find .start).length = 1
  unnumbered : ∀ id, (g.props id).has Props.sequence = false

/-- What is built from a description that numbers no node can be scheduled. -/
theorem unannotated_of_build {spec : Description.GraphSpec} {g : Graph} (h : Description.build spec = .ok g)
    (hkey : ∀ n ∈ spec.nodes, ∀ p ∈ n.props, p.1 ≠ Props.sequence) : g.Unannotated where
  consistent := Description.consistent_of_build h
  roles := (Description.unscheduled_of_build h).1
  oneStart := (Description.unscheduled_of_build h).2
  unnumbered := Description.has_props_of_build h hkey

end SeaOfNodes.Graph

namespace SeaOfNodes.Pass

open SeaOfNodes.Graph

theorem unannotated_run {p : Pass} {g : Graph} {r : Change} (h : p.run g = .ok r) (hg : g.Unannotated) :
    r.graph.Unannotated := by
  have hkept := keeps_run hg.consistent h
  refine ⟨consistent_run h hg.consistent, hkept.roles hg.roles, ?_, hkept.unset (by decide) hg.unnumbered⟩
  rw [hkept.length_find_start]
  exact hg.oneStart

/-- Whatever passes a compiler runs, their outcome can be scheduled. -/
theorem unannotated_runPasses (c : Compiler) {g : Graph} (hg : g.Unannotated) : (c.runPasses g).graph.Unannotated :=
  (runPasses_keeps (fun hs hrun => unannotated_run hrun hs) c hg).1

end SeaOfNodes.Pass
