/-
  SeaOfNodes.Pass.DeadCode

  Removal of floating nodes that no edge leaves.  Removing a node can strand
  the nodes that feed it, so the sweep is repeated until nothing more goes.
-/
import SeaOfNodes.Graph.Query
import SeaOfNodes.Pass.Change

namespace SeaOfNodes

/-- The floating nodes without any outbound edge. -/
def Graph.deadNodes (g : Graph) : List NodeId :=
  g.ids.filter fun id => g.isFloating id && (g.outputs id).isEmpty

namespace Pass.DeadCode

/-- Remove the dead nodes, then those that became dead, for as many rounds as
    given; `removed` counts what went before. -/
def sweep : (rounds : Nat) → Graph → (removed : Nat) → Except Misuse Change
  | 0, g, removed => .ok ⟨g, removed⟩
  | rounds + 1, g, removed =>
    match g.deadNodes with
    | [] => .ok ⟨g, removed⟩
    | dead => do
      let g ← dead.foldlM Graph.remove g
      sweep rounds g (removed + dead.length)

/-- Remove every dead node.  A round that changes something removes a node, so
    as many rounds as there are nodes suffice. -/
def run (g : Graph) : Except Misuse Change := sweep g.size g 0

end Pass.DeadCode

end SeaOfNodes
