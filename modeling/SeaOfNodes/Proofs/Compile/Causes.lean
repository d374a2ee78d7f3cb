/-
  SeaOfNodes.Proofs.Compile.Causes

  The errors of compilation, from the description of a graph on.  Passes, scheduling and
  linearization each guard against states that the stages before have ruled out: none of
  these guards ever speaks, and nothing is asked of a graph that the graph would refuse.
-/
import SeaOfNodes.Proofs.Compile.Annotation
import SeaOfNodes.Proofs.Compile.DefinedBeforeUse
import SeaOfNodes.Proofs.Listing.Causes
import SeaOfNodes.Proofs.Pass.Totality
import SeaOfNodes.Proofs.Schedule.Causes

namespace SeaOfNodes

/-! ## Annotated graphs are consistent -/

theorem Schedule.Annotated.consistent {g s : Graph} {added : List Edge} (h : Annotated g s added)
    (hg : g.Consistent) : s.Consistent where
  source_eq id e he := by
    rw [h.outputs] at he
    rcases List.mem_append.1 he with he | he
    · exact hg.source_eq id e he
    · exact of_decide_eq_true (List.mem_filter.1 he).2
  target_eq id e he := by
    rw [h.inputs] at he
    rcases List.mem_append.1 he with he | he
    · exact hg.target_eq id e he
    · exact of_decide_eq_true (List.mem_filter.1 he).2
  excess_eq e := by
    have hold := hg.count_eq e
    have hsource : (added.filter fun x => x.source = e.source).count e = added.count e := by
      exact List.count_filter (by simp)
    have htarget : (added.filter fun x => x.target = e.target).count e = added.count e := by
      exact List.count_filter (by simp)
    rw [Graph.excess, h.outputs, h.inputs, List.count_append, List.count_append, hsource, htarget, hold]
    exact Int.sub_self _

theorem Listing.Registered.consistent {g s : Graph} (h : Registered g s) (hg : g.Consistent) : s.Consistent :=
  hg.congr h.inputs h.outputs

namespace Compiler

open Schedule

/-- However a compilation ends, it leaves a consistent graph. -/
theorem consistent_trace (c : Compiler) {g : Graph} (hg : g.Consistent) : (c.trace g).graph.Consistent := by
  have hpasses := Pass.consistent_runPasses c hg
  obtain ⟨added, hannotated⟩ := annotated_run (c.runPasses g).graph
  have hscheduled := hannotated.consistent hpasses
  unfold trace
  dsimp only
  split
  · exact hpasses
  · split
    · exact hscheduled
    · exact (Listing.registered_linearize _).consistent hscheduled

/-! ## Errors -/

/-- The causes for which a compilation may stop: an addition without two operands, and what
    scheduling and linearization may find wrong. -/
def Error.Expected (s : Graph) : Error → Prop
  | .pass ⟨_, .malformed _ _⟩ => True
  | .round _ ⟨_, .malformed _ _⟩ => True
  | .schedule failure => failure.Expected
  | .linearize cause => cause.Expected s
  | _ => False

theorem failsOnly_compile (c : Compiler) {g : Graph} (hg : g.Unannotated)
    (hsize : (c.runPasses g).graph.arena.size < 2 ^ 63) :
    FailsOnly (Error.Expected (c.scheduled g)) (c.compile g) := by
  intro cause hcompile
  unfold compile trace Trace.result at hcompile
  -- It stops in a pass, or else in the schedule of what the passes leave, or else in the listing.
  cases herror : (c.runPasses g).error? with
  | some failed =>
      obtain rfl : failed = cause := by simpa [herror] using hcompile
      have hkeeps := Pass.runPasses_keeps (fun hs hrun => Pass.consistent_run hrun hs) c hg.consistent
      obtain ⟨⟨p, why⟩, s, hs, hfails, hcause⟩ := hkeeps.2 failed herror
      obtain ⟨label, n, rfl⟩ := Pass.run_error hs hfails
      rcases hcause with rfl | ⟨round, rfl⟩
      · trivial
      · trivial
  | none =>
      have hpasses := Pass.unannotated_runPasses c hg
      cases hfailure : (Schedule.run (c.runPasses g).graph).failure? with
      | some failure =>
          obtain rfl : Error.schedule failure = cause := by simpa [herror, hfailure] using hcompile
          exact run_causes hpasses hsize hfailure
      | none =>
          obtain ⟨-, order, hscheduled⟩ := scheduled_of_run hpasses.consistent hfailure
          simp only [herror, hfailure, Option.isSome_none, Bool.false_eq_true, if_false, Option.bind_some]
            at hcompile
          obtain ⟨why, hlist, rfl⟩ := mapError_eq_error.1 hcompile
          exact Listing.linearize_failsOnly hscheduled why hlist

/-! ## What is taken for granted -/

/-- One graph is made of another by passes that finish. -/
def Makes : Graph → Graph → Prop :=
  Relation.ReflTransGen fun s s' => ∃ (p : Pass) (r : Pass.Change), p.run s = .ok r ∧ s' = r.graph

/-- What a compilation relies on without a check of its own: that the nodes it asks about
    are live, and that a transfer has its operands. -/
structure Reliable (c : Compiler) (g : Graph) : Prop where
  /-- Where a pass begins, every edge is stored at two live ends. -/
  passes : ∀ s, Makes g s → s.Consistent
  /-- A phi is live when its turn comes. -/
  phis : ∀ s, Makes g s → ∀ front phi back r, s.find .phi = front ++ phi :: back →
    front.foldlM Pass.NoChoice.visit ⟨s, 0⟩ = .ok r → r.graph.has phi = true
  /-- Where compilation ends, every edge is stored at two live ends. -/
  outcome : (c.trace g).graph.Consistent
  /-- A transfer has the operands that the simplification of its block looks at. -/
  transfers : ∀ chains layout, Listing.plan (c.scheduled g) = .ok (chains, layout) → ∀ chain ∈ chains, ∀ drafts,
    Listing.emitChain (Listing.assignRegisters (c.scheduled g) chains) chain = .ok drafts →
      ∀ d ∈ drafts, Listing.Complete d

theorem consistent_of_makes {g s : Graph} (h : Makes g s) (hg : g.Consistent) : s.Consistent := by
  induction h with
  | refl => exact hg
  | tail _ hstep ih =>
      obtain ⟨p, r, hrun, rfl⟩ := hstep
      exact Pass.consistent_run hrun ih

theorem reliable_of_consistent (c : Compiler) {g : Graph} (hg : g.Consistent) : Reliable c g where
  passes _ hs := consistent_of_makes hs hg
  phis _ hs _ _ _ _ hphis hvisited := Pass.NoChoice.live_of_visited (consistent_of_makes hs hg) hphis hvisited
  outcome := consistent_trace c hg
  transfers _ _ _ _ _ _ hemit := Listing.complete_of_emitChain hemit

/-- Of a description that builds and numbers no node, no compilation relies on what is not
    so, and each one that fails does for an expected cause.  Numbers have 64 bits, and no
    graph outgrows them. -/
theorem compile_expected (c : Compiler) (spec : Description.GraphSpec) (g : Graph)
    (hbuild : Description.build spec = .ok g) (hkey : ∀ n ∈ spec.nodes, ∀ p ∈ n.props, p.1 ≠ Props.sequence)
    (hsize : (c.runPasses g).graph.arena.size < 2 ^ 63) :
    Reliable c g ∧ FailsOnly (Error.Expected (c.scheduled g)) (c.compile g) := by
  have hg := Graph.unannotated_of_build hbuild hkey
  exact ⟨reliable_of_consistent c hg.consistent, failsOnly_compile c hg hsize⟩

/-- Control leaves a branch under a role that is none of its outcomes. -/
def strayControl : Description.GraphSpec :=
  ⟨"stray", "", [node "start" "begin" [], node "arg" "x" [],
    node "branch" "choice" [("control", "begin"), ("condition", "x")], node "finish" "yes" [("true", "choice")],
    node "finish" "no" [("false", "choice")], node "safepoint" "lost" [("control", "choice")]]⟩

def strayControlGraph : Graph :=
  .assemble [.start, .arg, .branch, .finish, .finish, .safepoint]
    [⟨0, 2, .control⟩, ⟨1, 2, .condition⟩, ⟨2, 3, .ifTrue⟩, ⟨2, 4, .ifFalse⟩, ⟨2, 5, .control⟩]

/-- The node that it leads to is in no block, and that is what is reported. -/
theorem compile_strayControl_expected :
    Description.build strayControl = .ok strayControlGraph ∧
      compile ⟨[.deadCode], true, 8⟩ strayControlGraph
        = .error (.linearize (.notScheduled (.unreached ⟨5, .safepoint⟩))) ∧
      ∃ id, (scheduled ⟨[.deadCode], true, 8⟩ strayControlGraph).has id = true ∧
        (⟨5, .safepoint⟩ : Label) = (scheduled ⟨[.deadCode], true, 8⟩ strayControlGraph).label id ∧
        ∀ first ∈ blockFirsts (scheduled ⟨[.deadCode], true, 8⟩ strayControlGraph),
          id ∉ blockMembers (scheduled ⟨[.deadCode], true, 8⟩ strayControlGraph) first := by
  have hbuild : Description.build strayControl = .ok strayControlGraph := by decide +kernel
  have hkey : ∀ n ∈ strayControl.nodes, ∀ p ∈ n.props, p.1 ≠ Props.sequence := by decide
  have hpasses : (runPasses ⟨[.deadCode], true, 8⟩ strayControlGraph).graph = strayControlGraph := by decide +kernel
  have hcompile : compile ⟨[.deadCode], true, 8⟩ strayControlGraph
      = .error (.linearize (.notScheduled (.unreached ⟨5, .safepoint⟩))) := by cbv
  obtain ⟨-, hfails⟩ := compile_expected ⟨[.deadCode], true, 8⟩ strayControl strayControlGraph hbuild hkey
    (by rw [hpasses]; decide +kernel)
  exact ⟨hbuild, hcompile, hfails _ hcompile⟩

end Compiler

end SeaOfNodes
