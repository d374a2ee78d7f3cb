/-
  SeaOfNodes.Graph.Basic

  A program as one graph: nodes with an operation and properties, and edges
  that carry control or values.  The graph is an arena addressed by handles; a
  removed node leaves a hole, so a handle is never used twice.  Every edge is
  stored at both of its ends, and the order of the two lists is kept.
-/
import SeaOfNodes.Op
import SeaOfNodes.Props
import SeaOfNodes.Role

namespace SeaOfNodes

/-- The handle of a node.  Handles of nodes are natural numbers; a negative one
    names no node. -/
abbrev NodeId := Int

/-- A handle as it is written. -/
def NodeId.text (id : NodeId) : String := "n" ++ toString (id : Int)

/-- A directed edge. -/
structure Edge where
  source : NodeId
  target : NodeId
  role : Role
deriving DecidableEq

/-- An edge as it is written. -/
def Edge.text (e : Edge) : String :=
  NodeId.text e.source ++ " -" ++ e.role.text ++ "-> " ++ NodeId.text e.target

/-- One operation of the graph, with the edges that reach and leave it. -/
structure Node where
  op : Op
  props : Props
  inputs : List Edge
  outputs : List Edge
deriving DecidableEq

/-- A graph: the arena of its nodes, with a hole for every removed one. -/
structure Graph where
  arena : Array (Option Node)
deriving DecidableEq

/-- A handle together with the operation found there, for messages. -/
structure Label where
  id : NodeId
  op : Op
deriving DecidableEq

/-- A label as it is written. -/
def Label.text (label : Label) : String := NodeId.text label.id ++ " " ++ label.op.name

namespace Graph

/-- The graph without nodes. -/
def empty : Graph := ⟨#[]⟩

/-- The node of a handle, unless it was removed or never existed. -/
def node? (g : Graph) : NodeId → Option Node
  | .ofNat i => (g.arena[i]?).join
  | .negSucc _ => none

/-- Whether a handle names a live node. -/
def has (g : Graph) (id : NodeId) : Bool := (g.node? id).isSome

/-- The handles of the live nodes, ascending. -/
def ids (g : Graph) : List NodeId :=
  ((List.range g.arena.size).map Int.ofNat).filter g.has

/-- The number of live nodes. -/
def size (g : Graph) : Nat := g.arena.foldl (fun n node => if node.isSome then n + 1 else n) 0

/-- The operation of a node; a handle that names none counts as invalid. -/
def op (g : Graph) (id : NodeId) : Op := ((g.node? id).map Node.op).getD .invalid

/-- The properties of a node. -/
def props (g : Graph) (id : NodeId) : Props := ((g.node? id).map Node.props).getD .empty

/-- The edges that reach a node, in stored order. -/
def inputs (g : Graph) (id : NodeId) : List Edge := ((g.node? id).map Node.inputs).getD []

/-- The edges that leave a node, in stored order. -/
def outputs (g : Graph) (id : NodeId) : List Edge := ((g.node? id).map Node.outputs).getD []

/-- The label of a node. -/
def label (g : Graph) (id : NodeId) : Label := ⟨id, g.op id⟩

/-- The live nodes with an operation, ascending. -/
def find (g : Graph) (op : Op) : List NodeId := g.ids.filter fun id => g.op id = op

/-- Change the node of a handle, if there is one. -/
def modify (g : Graph) (id : NodeId) (f : Node → Node) : Graph :=
  match id with
  | .ofNat i => ⟨g.arena.modify i (Option.map f)⟩
  | .negSucc _ => g

/-- Take the node of a handle out of the arena. -/
def drop (g : Graph) (id : NodeId) : Graph :=
  match id with
  | .ofNat i => ⟨g.arena.modify i fun _ => none⟩
  | .negSucc _ => g

/-- Give a property of a node a literal. -/
def setProp (g : Graph) (id : NodeId) (key : String) (value : Literal) : Graph :=
  g.modify id fun n => { n with props := n.props.set key value }

end Graph

/-! ## Misuse -/

/-- A call that names something the graph does not have, or that would replace a
    node by itself. -/
inductive Misuse where
  | missingNode (id : NodeId)
  | missingEdge (edge : Edge)
  | selfReplacement (label : Label)
  | selfForwarding (label : Label)
deriving DecidableEq

/-- How a misuse is reported. -/
def Misuse.message : Misuse → String
  | .missingNode id => "ir: node " ++ NodeId.text id ++ " is not in the graph"
  | .missingEdge edge => "ir: edge " ++ edge.text ++ " is not in the graph"
  | .selfReplacement label => "ir: cannot replace " ++ label.text ++ " with itself"
  | .selfForwarding label => "ir: cannot replace uses of " ++ label.text ++ " with itself"

/-- The node of a handle that has to name one. -/
def Graph.require (g : Graph) (id : NodeId) : Except Misuse Node :=
  match g.node? id with
  | some node => .ok node
  | none => .error (.missingNode id)

end SeaOfNodes
