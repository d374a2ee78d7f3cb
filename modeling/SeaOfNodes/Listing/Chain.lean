/-
  SeaOfNodes.Listing.Chain

  The basic blocks of a scheduled graph, read off its chains.  A chain begins
  at a block's first node and follows the schedule to its end, or up to the
  merge that begins the next block.  Every node has to be on exactly one chain.
  Blocks that return come after all others.
-/
import SeaOfNodes.Graph.Query
import SeaOfNodes.Listing.Error

namespace SeaOfNodes.Listing

/-- A basic block as the schedule has it. -/
structure Chain where
  first : NodeId
  nodes : List NodeId
  /-- The merge that ends the block. -/
  merge? : Option NodeId
  returns : Bool
deriving DecidableEq

/-- Follow the schedule from a node for at most `steps` nodes: the nodes met, and
    the merge that ended the walk. -/
def followChain (g : Graph) (first : NodeId) :
    (steps : Nat) → NodeId → Except Error (List NodeId × Option NodeId)
  | 0, _ => .error (.notScheduled (.endless (g.label first)))
  | steps + 1, id =>
    match g.outputsNamed id .localSchedule with
    | [] => .ok ([id], none)
    | [e] =>
      if g.op e.target = .merge then .ok ([id], some e.target)
      else (followChain g first steps e.target).map fun (nodes, merge?) => (id :: nodes, merge?)
    | edges => .error (.notScheduled (.severalSuccessors (g.label id) edges.length))

/-- The chain that a node begins. -/
def chainFrom (g : Graph) (first : NodeId) : Except Error Chain :=
  (followChain g first g.size first).map fun (nodes, merge?) =>
    ⟨first, nodes, merge?, nodes.any fun id => g.op id = .finish⟩

/-- The chains of all nodes that begin a block, in ascending order of these. -/
def collectChains (g : Graph) : Except Error (List Chain) :=
  (g.ids.filter g.beginsBlock).mapM (chainFrom g)

/-- Note which chain each node of a list is on, refusing one that is on a chain
    already. -/
def coverNodes (g : Graph) (first : NodeId) :
    (seen : List (NodeId × NodeId)) → List NodeId → Except Error (List (NodeId × NodeId))
  | seen, [] => .ok seen
  | seen, id :: rest =>
    match seen.lookup id with
    | some owner => .error (.notScheduled (.shared (g.label id) (g.label owner) (g.label first)))
    | none => coverNodes g first ((id, first) :: seen) rest

/-- Check that every live node is on exactly one chain. -/
def checkCoverage (g : Graph) (chains : List Chain) : Except Error Unit := do
  let seen ← chains.foldlM (fun seen c => coverNodes g c.first seen c.nodes) []
  match g.ids.find? fun id => (seen.lookup id).isNone with
  | some id => throw (.notScheduled (.unreached (g.label id)))
  | none => return ()

/-- The chains in the order of their blocks: those that return last. -/
def orderChains (chains : List Chain) : Except Error (List Chain) :=
  let returning := chains.filter Chain.returns
  if returning.isEmpty then .error .noReturn
  else .ok (chains.filter (fun c => !c.returns) ++ returning)

/-- The number of the merge input that a block flows into: that of the first
    control edge to the merge that leaves the chain, a plain one counting as 0. -/
def mergeInput (g : Graph) (c : Chain) (merge : NodeId) : Except Error Int64 :=
  match (g.inputsWhere merge Role.isControl).find? fun e => c.nodes.contains e.source with
  | some e => .ok (e.role.index.getD 0)
  | none => .error (.unresolvedPhi (.noControlEdge (g.label c.first) (g.label merge)))

/-- Where the blocks of a listing are, and which of them flows into which input
    of a merge. -/
structure Layout where
  /-- The block that a node begins. -/
  index : List (NodeId × Nat)
  /-- The first node of the block that flows into an input of a merge, the latest
      first. -/
  incoming : List ((NodeId × Int64) × NodeId)
deriving DecidableEq

/-- The layout of chains, the first of them at a given index. -/
def layoutFrom (g : Graph) : (index : Nat) → Layout → List Chain → Except Error Layout
  | _, layout, [] => .ok layout
  | i, layout, c :: rest => do
    let incoming ←
      match c.merge? with
      | none => pure layout.incoming
      | some merge => do
        let n ← mergeInput g c merge
        pure (((merge, n), c.first) :: layout.incoming)
    layoutFrom g (i + 1) ⟨(c.first, i) :: layout.index, incoming⟩ rest

/-- The layout of chains. -/
def layoutOf (g : Graph) (chains : List Chain) : Except Error Layout :=
  layoutFrom g 0 ⟨[], []⟩ chains

end SeaOfNodes.Listing
