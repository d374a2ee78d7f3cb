/-
  SeaOfNodes.Schedule.Block

  The order inside basic blocks.  The block of a node that begins one is the
  smallest set that holds it and is closed under inbound anchors and outbound
  control, with three exceptions: nothing is followed from a merge that begins
  another block, control is not followed from a branch, and not from a start to
  a finish that control reaches from elsewhere too.

  The members are chained one by one: the lowest handle whose inputs from the
  block are chained already goes next, and what ends the block goes last.
-/
import SeaOfNodes.Graph.Query
import SeaOfNodes.Graph.Surgery
import SeaOfNodes.Outcome
import SeaOfNodes.Schedule.Closure
import SeaOfNodes.Schedule.Error

namespace SeaOfNodes.Schedule

/-- Whether a node of a block is a merge that begins another one. -/
def isOtherMerge (g : Graph) (first id : NodeId) : Bool := id ≠ first && g.op id = .merge

/-- Whether control along an edge stays in the block: everything but a start's
    edge to a finish that has other control predecessors. -/
def staysInBlock (g : Graph) (e : Edge) : Bool :=
  !(g.op e.source = .start && g.op e.target = .finish
    && 1 < (g.controlPredecessors e.target).length)

/-- The nodes that belong to the block of `first` because `id` does. -/
def blockNeighbours (g : Graph) (first id : NodeId) : List NodeId :=
  if isOtherMerge g first id then []
  else
    let anchored := (g.inputsNamed id .globalSchedule).map Edge.source
    let following :=
      if g.op id = .branch then []
      else ((g.outputsWhere id Role.isControl).filter (staysInBlock g)).map Edge.target
    anchored ++ following

/-- How many edges are stored at the nodes of a graph, each end counted. -/
def edgeEnds (g : Graph) : Nat :=
  (g.ids.flatMap fun id => g.inputs id ++ g.outputs id).length

/-- The nodes of the block that `first` begins, ascending. -/
def blockMembers (g : Graph) (first : NodeId) : List NodeId :=
  let reached := visitAll (blockNeighbours g first) (edgeEnds g + 1) [first] []
  g.ids.filter (· ∈ reached)

/-- Whether a node has to be the last of the block that `first` begins. -/
def endsBlock (g : Graph) (first id : NodeId) : Bool :=
  g.op id = .branch || g.op id = .finish || isOtherMerge g first id

/-- The node that ends a block, if there is one; two are refused. -/
def terminator (g : Graph) (first : NodeId) (members : List NodeId) : Except Error (Option NodeId) :=
  match members.filter fun id => id ≠ first && endsBlock g first id with
  | [] => .ok none
  | [id] => .ok (some id)
  | id :: other :: _ => .error (.blockOrder (.twoEnds (g.label first) (g.label id) (g.label other)))

/-- Whether every input of a node that comes from the block is chained.  The
    chain itself does not count, nor does what is anchored to the first node:
    that still runs after it. -/
def isChainable (g : Graph) (first : NodeId) (members chained : List NodeId) (id : NodeId) : Bool :=
  (g.inputs id).all fun e =>
    e.role.name = .localSchedule || (id = first && e.role.name = .globalSchedule)
      || !members.contains e.source || chained.contains e.source

/-- Append a node to a chain. -/
def chainEdge (tail id : NodeId) : Edge := ⟨tail, id, .localSchedule⟩

/-- Extend a chain by the pending nodes, one at a time. -/
def extendChain (first : NodeId) (members : List NodeId) (last? : Option NodeId) :
    (steps : Nat) → Graph → (chained : List NodeId) → (tail : NodeId) → (pending : List NodeId) →
    Outcome Graph Error Unit
  | 0, g, _, _, _ => .done g ()
  | steps + 1, g, chained, tail, pending =>
    match pending with
    | [] => .done g ()
    | _ :: _ =>
      let eligible := fun id =>
        !(some id = last? && 1 < pending.length) && isChainable g first members chained id
      match pending.find? eligible with
      | none => .failed g (.blockOrder (.noReadyNode pending.length (g.label first)))
      | some id =>
        match g.connect (chainEdge tail id) with
        | .error cause => .failed g (.misuse cause)
        | .ok g => extendChain first members last? steps g (id :: chained) id (pending.erase id)

/-- Chain the members of a block, beginning with `first`. -/
def chainBlock (g : Graph) (first : NodeId) (members : List NodeId) : Outcome Graph Error Unit :=
  match terminator g first members with
  | .error cause => .failed g cause
  | .ok last? =>
    if !isChainable g first members [first] first then
      .failed g (.blockOrder (.dependentFirst (g.label first)))
    else
      let pending := members.filter (· ≠ first)
      extendChain first members last? pending.length g [first] first pending

/-- A block that was chained: its first node and how many members it has. -/
structure Chained where
  first : NodeId
  size : Nat
deriving DecidableEq

/-- A graph whose blocks are being chained: who owns which node, and the blocks
    done so far. -/
structure Chaining where
  graph : Graph
  owners : List (NodeId × NodeId)
  blocks : List Chained
deriving DecidableEq

/-- Claim the members of a block for it, merges of other blocks apart. -/
def claim (g : Graph) (first : NodeId) :
    (owners : List (NodeId × NodeId)) → List NodeId → Except Error (List (NodeId × NodeId))
  | owners, [] => .ok owners
  | owners, id :: rest =>
    if isOtherMerge g first id then claim g first owners rest
    else
      match owners.lookup id with
      | some owner => .error (.blockOrder (.shared (g.label id) (g.label owner) (g.label first)))
      | none => claim g first ((id, first) :: owners) rest

/-- Chain the blocks that a list of nodes begins. -/
def chainBlocks (c : Chaining) : List NodeId → Outcome Chaining Error Unit
  | [] => .done c ()
  | first :: rest =>
    let members := blockMembers c.graph first
    match claim c.graph first c.owners members with
    | .error cause => .failed c cause
    | .ok owners =>
      match chainBlock c.graph first members with
      | ⟨g, .error cause⟩ => .failed { c with graph := g } cause
      | ⟨g, .ok ()⟩ => chainBlocks ⟨g, owners, c.blocks ++ [⟨first, members.length⟩]⟩ rest

/-- Chain every basic block of a graph. -/
def chainAll (g : Graph) : Outcome Chaining Error Unit :=
  chainBlocks ⟨g, [], []⟩ (g.ids.filter g.beginsBlock)

end SeaOfNodes.Schedule
