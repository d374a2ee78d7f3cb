/-
  SeaOfNodes.Description.Build

  From descriptions to graphs.  Node names have to be distinct, operations and
  roles known, properties literals, inputs declared, and values come from nodes
  that have one; there has to be exactly one start.  Nodes are numbered in the
  order of declaration, and so are the edges of each node.
-/
import SeaOfNodes.Description.Basic
import SeaOfNodes.Description.Convert
import SeaOfNodes.Graph.Query
import SeaOfNodes.Graph.Surgery

namespace SeaOfNodes.Description

/-- What is wrong with the description of a node. -/
inductive NodeFault where
  | unknownOp (cause : Op.Unknown)
  | badProperty (key : String) (cause : ConversionError)
  | unknownSource (name : String)
  | badRole (cause : Role.ParseError)
  | noValue (role : Role) (source : String)
deriving DecidableEq

/-- What is wrong with the description of a graph. -/
inductive Fault where
  | definedTwice (node : String)
  | badNode (node : String) (cause : NodeFault)
  | startCount (found : Nat)
deriving DecidableEq

/-- A description that is refused. -/
structure BuildError where
  graph : String
  fault : Fault
deriving DecidableEq

/-- How a bad node is reported. -/
def NodeFault.message : NodeFault → String
  | .unknownOp cause => cause.message
  | .badProperty key cause => "property " ++ Text.quote key ++ ": " ++ cause.message
  | .unknownSource name => "input from unknown node " ++ Text.quote name
  | .badRole cause => cause.message
  | .noValue role source =>
    role.text ++ " input from " ++ Text.quote source ++ ", which produces no value"

/-- How a bad graph is reported. -/
def Fault.message : Fault → String
  | .definedTwice node => "node " ++ Text.quote node ++ " is defined twice"
  | .badNode node cause => "node " ++ Text.quote node ++ ": " ++ cause.message
  | .startCount found => "want exactly one start node, found " ++ toString found

/-- How a refused description is reported. -/
def BuildError.message (e : BuildError) : String :=
  "invalid graph " ++ Text.quote e.graph ++ ": " ++ e.fault.message

/-- Properties in the order of their names. -/
def sortProps (props : List (String × Value)) : List (String × Value) :=
  props.mergeSort fun a b => a.1 ≤ b.1

/-- The literals of properties, taken in the order of their names. -/
def convertProps (props : List (String × Value)) : Except NodeFault Props := do
  let entries ← (sortProps props).mapM fun (key, value) =>
    match value.toLiteral with
    | .ok literal => .ok (key, literal)
    | .error cause => .error (.badProperty key cause)
  return Props.ofList entries

/-- The operation and the properties of a node. -/
def convertNode (n : NodeSpec) : Except NodeFault (Op × Props) := do
  let op ←
    match Op.ofName n.op with
    | .ok op => pure op
    | .error cause => throw (.unknownOp cause)
  return (op, ← convertProps n.props)

/-- Node names with their handles. -/
abbrev Names := List (String × NodeId)

/-- Add one node for each description, in order. -/
def createNodes (names : Names) (g : Graph) : List NodeSpec → Except Fault (Names × Graph)
  | [] => .ok (names, g)
  | n :: rest =>
    if (names.lookup n.name).isSome then .error (.definedTwice n.name)
    else
      match convertNode n with
      | .error cause => .error (.badNode n.name cause)
      | .ok (op, props) =>
        let (id, g) := g.addNode op props
        createNodes (names ++ [(n.name, id)]) g rest

/-- The edge of an input of the node `target`. -/
def inputEdge (names : Names) (g : Graph) (target : NodeId) (input : Input) :
    Except NodeFault Edge :=
  match names.lookup input.source with
  | none => .error (.unknownSource input.source)
  | some source =>
    match Role.parse input.role with
    | .error cause => .error (.badRole cause)
    | .ok role =>
      if role.isValue && !g.producesValue source then .error (.noValue role input.source)
      else .ok ⟨source, target, role⟩

/-- Add the edges of one node's inputs, in order. -/
def linkInputs (names : Names) (target : NodeId) (g : Graph) :
    List Input → Except NodeFault Graph
  | [] => .ok g
  | input :: rest => do
    let e ← inputEdge names g target input
    linkInputs names target (g.linkEdge e) rest

/-- Add the edges of all nodes, in order. -/
def linkNodes (names : Names) (g : Graph) : List NodeSpec → Except Fault Graph
  | [] => .ok g
  | n :: rest =>
    match linkInputs names ((names.lookup n.name).getD (-1)) g n.inputs with
    | .error cause => .error (.badNode n.name cause)
    | .ok g => linkNodes names g rest

/-- The graph that a list of node descriptions stands for. -/
def buildNodes (nodes : List NodeSpec) : Except Fault Graph := do
  let (names, g) ← createNodes [] .empty nodes
  let g ← linkNodes names g nodes
  let starts := (g.find .start).length
  if starts = 1 then return g else throw (.startCount starts)

/-- Build the graph of a description. -/
def build (spec : GraphSpec) : Except BuildError Graph :=
  (buildNodes spec.nodes).mapError (⟨spec.name, ·⟩)

end SeaOfNodes.Description
