/-
  SeaOfNodes.Proofs.Graph.Identification

  Replacing a node identifies it with another.  Nothing else happens: every edge stays in
  its place with its ends renamed, and what was stored at the node that goes is stored at
  the other after what was there before.  Edges are moved one at a time while those lists
  grow, so an edge between the two nodes is met from both of its ends; it is renamed once.
-/
import SeaOfNodes.Proofs.Graph.Positions

namespace SeaOfNodes.Graph

/-- A graph is another one with `old` identified with `new`. -/
structure Identified (g g' : Graph) (old new : NodeId) : Prop where
  has : ∀ id, g'.has id = true ↔ g.has id = true ∧ id ≠ old
  size : g'.size + 1 = g.size
  op : ∀ id, id ≠ old → g'.op id = g.op id
  props : ∀ id, id ≠ old → g'.props id = g.props id
  inputs : ∀ id, id ≠ old → id ≠ new → g'.inputs id = (g.inputs id).map (renameEdge old new)
  outputs : ∀ id, id ≠ old → id ≠ new → g'.outputs id = (g.outputs id).map (renameEdge old new)
  inputs_new : g'.inputs new = (g.inputs new).map (renameEdge old new) ++ (g.inputs old).map (renameEdge old new)
  outputs_new :
    g'.outputs new = (g.outputs new).map (renameEdge old new) ++ (g.outputs old).map (renameEdge old new)

section Identified

variable {g g' : Graph} {old new : NodeId}

theorem Consistent.identified (hg : g.Consistent) (h : g.replace old new = .ok g') : Identified g g' old new := by
  have hlacks := lacks_of_replace h
  obtain ⟨-, -, hne, -⟩ := replace_eq_ok.1 h
  refine ⟨hlacks.has, hlacks.size_eq.symm, hlacks.op, hlacks.props, fun id hid hother => ?_,
    fun id hid hother => ?_, ?_, ?_⟩
  · rw [hg.inputs_of_replace h hid, if_neg hother, List.append_nil]
  · rw [hg.outputs_of_replace h hid, if_neg hother, List.append_nil]
  · rw [hg.inputs_of_replace h hne.symm, if_pos rfl, List.map_append]
  · rw [hg.outputs_of_replace h hne.symm, if_pos rfl, List.map_append]

/-- A live node can be replaced by any other live one, and is then identified with it. -/
theorem Consistent.replace_identifies (hg : g.Consistent) (hold : g.has old = true) (hnew : g.has new = true)
    (hne : old ≠ new) : ∃ g', g.replace old new = .ok g' ∧ Identified g g' old new := by
  obtain ⟨g', h⟩ := exists_replace hold hnew hne
  exact ⟨g', h, hg.identified h⟩

end Identified

/-- A node that reads itself twice over, reads another twice over and is read by it, beside one that
    reads both. -/
def tangle : Graph :=
  assemble [.add, .add, .trace]
    [⟨0, 0, .value⟩, ⟨0, 2, .valueN 0⟩, ⟨1, 0, .value⟩, ⟨0, 0, .value⟩, ⟨0, 1, .value⟩, ⟨1, 0, .value⟩,
      ⟨1, 2, .valueN 1⟩, ⟨0, 2, .valueN 0⟩]

/-- Everything between the two becomes an edge of the one to itself, and the reader keeps its
    operands in their order. -/
theorem replace_tangle_identifies :
    tangle.Consistent ∧ ∃ g', tangle.replace 0 1 = .ok g' ∧ g'.has 0 = false ∧
      g'.inputs 2 = [⟨1, 2, .valueN 0⟩, ⟨1, 2, .valueN 1⟩, ⟨1, 2, .valueN 0⟩] ∧
      g'.inputs 1 = List.replicate 5 ⟨1, 1, .value⟩ ∧
      g'.outputs 1 = [⟨1, 1, .value⟩, ⟨1, 1, .value⟩, ⟨1, 2, .valueN 1⟩, ⟨1, 1, .value⟩, ⟨1, 2, .valueN 0⟩,
        ⟨1, 1, .value⟩, ⟨1, 1, .value⟩, ⟨1, 2, .valueN 0⟩] := by
  have hconsistent : tangle.Consistent := consistent_assemble (by decide)
  obtain ⟨g', hreplace, h⟩ : ∃ g', tangle.replace 0 1 = .ok g' ∧ Identified tangle g' 0 1 :=
    hconsistent.replace_identifies (by decide) (by decide) (by decide)
  refine ⟨hconsistent, g', hreplace, ?_, ?_, ?_, ?_⟩
  · rw [← Bool.not_eq_true, h.has]
    exact fun hgone => hgone.2 rfl
  · rw [h.inputs 2 (by decide) (by decide)]
    decide
  · rw [h.inputs_new]
    decide
  · rw [h.outputs_new]
    decide

end SeaOfNodes.Graph
