/-
  SeaOfNodes.Pass.NoChoice

  Removal of phis that choose between copies of one value.  Their consumers
  read the value itself.  A phi stays if control leaves it, or if the value it
  forwards reads the phi.
-/
import SeaOfNodes.Graph.Query
import SeaOfNodes.Pass.Change

namespace SeaOfNodes

/-- The one other node that all value inputs of a phi come from, provided that
    the phi may be bypassed. -/
def Graph.soleChoice? (g : Graph) (phi : NodeId) : Option NodeId :=
  match g.valueInputs phi with
  | [] => none
  | source :: others =>
    if g.hasControlOutput phi then none
    else if others.any (· ≠ source) then none
    else if source = phi then none
    else if (g.consumers phi).contains source then none
    else some source

namespace Pass.NoChoice

/-- Visit one phi: bypass and remove it if it has no choice. -/
def visit (r : Change) (phi : NodeId) : Except Misuse Change :=
  match r.graph.soleChoice? phi with
  | none => .ok r
  | some source => do
    let g ← r.graph.replaceUses phi source
    let g ← g.remove phi
    return ⟨g, r.count + 1⟩

/-- Visit every phi once, in ascending order. -/
def run (g : Graph) : Except Misuse Change := (g.find .phi).foldlM visit ⟨g, 0⟩

end Pass.NoChoice

end SeaOfNodes
