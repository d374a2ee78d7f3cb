/-
  SeaOfNodes.Proofs.Schedule.ControlSearch

  The question whether control flows from one node's place to another's.  It is decided
  wherever both places are known: neither the bound on the steps of a chain of anchors nor
  the bound on the steps of the search is ever what ends them.
-/
import SeaOfNodes.Proofs.Graph.Consistent
import SeaOfNodes.Proofs.Schedule.FixedAnchor
import SeaOfNodes.Proofs.Schedule.Walk

namespace SeaOfNodes.Schedule

/-- Any bound above the number of nodes follows the same chains. -/
theorem followAnchors_of_size_lt {g : Graph} {id last : NodeId} {steps : Nat} (hsteps : g.size < steps) :
    followAnchors g id steps id = .ok last ↔ ∃ passed, AnchorChain g id passed last := by
  rw [followAnchors_eq_ok]
  constructor
  · rintro ⟨passed, hchain, -⟩
    exact ⟨passed, hchain⟩
  · rintro ⟨passed, hchain⟩
    exact ⟨passed, hchain, Nat.lt_of_le_of_lt hchain.length_le_size hsteps⟩

/-- In whatever order the successors of a node are put on the stack, a search for control ends and
    answers whether there is a path. -/
theorem searches_control_iff {g : Graph} {next : NodeId → List NodeId}
    (hnext : ∀ id, (next id).Perm (g.controlSuccessors id)) {source target : NodeId} {found : Bool} :
    Searches next target [source] [] found ↔ (found = true ↔ ControlPath g source target) := by
  have hmembers : ∀ id, next id ≠ [] → id ∈ g.ids := fun id hsome =>
    mem_ids_of_controlSuccessors id fun hnone => hsome (List.perm_nil.1 (hnone ▸ hnext id))
  rw [searches_iff hmembers, steps_eq_of_perm hnext]
  rfl

/-- A node has a fixed anchor exactly if a chain of single anchors leads from it through floating nodes
    to that fixed node, and a larger bound finds no other.  Between nodes with fixed anchors the answer
    is whether a control path, possibly empty, leads from the one anchor to the other; the search
    without a bound ends with that answer, in whatever order successors are put on its stack. -/
theorem anchorReaches_decides (g : Graph) :
    (∀ id last, (fixedAnchor g id = .ok last ↔ g.isFixed last = true ∧ ∃ passed, AnchorChain g id passed last) ∧
      ∀ steps, g.size < steps → (followAnchors g id steps id = .ok last ↔ fixedAnchor g id = .ok last)) ∧
    ∀ a b source target, fixedAnchor g a = .ok source → fixedAnchor g b = .ok target →
      ∃ answer, anchorReaches g a b = .ok answer ∧ (answer = true ↔ ControlPath g source target) ∧
        ∀ next, (∀ id, (next id).Perm (g.controlSuccessors id)) → ∀ found,
          Searches next target [source] [] found ↔ found = answer := by
  refine ⟨fun id last => ⟨?_, fun steps hsteps => ?_⟩, fun a b source target ha hb => ?_⟩
  · rw [fixedAnchor_eq_ok]
    exact ⟨fun h => ⟨h.isFixed, h⟩, fun h => h.2⟩
  · rw [followAnchors_of_size_lt hsteps, fixedAnchor_eq_ok]
    rfl
  · refine ⟨controlReaches g source target, ?_, controlReaches_iff, fun next hnext found => ?_⟩
    · rw [anchorReaches, ha, hb]
      rfl
    · rw [searches_control_iff hnext, ← controlReaches_iff, ← Bool.eq_iff_iff]

/-- Two merges that control leads back and forth between, to one of them twice from the other and to
    one from itself; a sum is anchored to another and that to the second merge. -/
def anchoredLoop : Graph :=
  Graph.assemble [.start, .merge, .merge, .add, .add]
    [⟨0, 1, .controlN 0⟩, ⟨1, 1, .controlN 1⟩, ⟨1, 2, .controlN 0⟩, ⟨1, 2, .controlN 1⟩, ⟨2, 1, .controlN 2⟩,
      ⟨3, 4, .globalSchedule⟩, ⟨4, 2, .globalSchedule⟩]

/-- The outer sum is placed at the second merge, which control reaches from the start and not the other
    way round. -/
theorem anchorReaches_anchoredLoop :
    anchoredLoop.Consistent ∧ fixedAnchor anchoredLoop 0 = .ok 0 ∧ fixedAnchor anchoredLoop 3 = .ok 2 ∧
      anchorReaches anchoredLoop 0 3 = .ok true ∧ anchorReaches anchoredLoop 3 0 = .ok false ∧
      ControlPath anchoredLoop 0 2 ∧ ¬ ControlPath anchoredLoop 2 0 ∧
      Searches (fun id => (anchoredLoop.controlSuccessors id).reverse) 0 [2] [] false := by
  have hconsistent : anchoredLoop.Consistent := Graph.consistent_assemble (by decide)
  have hstart : fixedAnchor anchoredLoop 0 = .ok 0 := by decide
  have hsum : fixedAnchor anchoredLoop 3 = .ok 2 := by decide
  have hto : anchorReaches anchoredLoop 0 3 = .ok true := by decide
  have hback : anchorReaches anchoredLoop 3 0 = .ok false := by decide
  obtain ⟨-, hdecides⟩ := anchorReaches_decides anchoredLoop
  obtain ⟨there, hthere, hpath, -⟩ := hdecides 0 3 0 2 hstart hsum
  obtain ⟨back, hanswer, hnopath, hsearch⟩ := hdecides 3 0 2 0 hsum hstart
  rw [hto] at hthere
  rw [hback] at hanswer
  cases hthere
  cases hanswer
  exact ⟨hconsistent, hstart, hsum, hto, hback, hpath.1 rfl, fun h => Bool.false_ne_true (hnopath.2 h),
    (hsearch _ (fun id => List.reverse_perm _) false).2 rfl⟩

end SeaOfNodes.Schedule
