/-
  SeaOfNodes.Description.Basic

  Descriptions of graphs, as people write them: nodes with an operation tag, a
  name, properties, and inputs that name other nodes of the same graph.
-/
import SeaOfNodes.Description.Value

namespace SeaOfNodes.Description

/-- An inbound edge: the role as it is written, and the name of the source. -/
structure Input where
  role : String
  source : String
deriving DecidableEq

/-- The description of a node. -/
structure NodeSpec where
  op : String
  name : String
  props : List (String × Value)
  inputs : List Input

/-- The description of a graph. -/
structure GraphSpec where
  name : String
  /-- The file it was read from. -/
  source : String
  nodes : List NodeSpec

/-- The first graph with a name. -/
def lookup (graphs : List GraphSpec) (name : String) : Option GraphSpec :=
  graphs.find? fun g => g.name == name

end SeaOfNodes.Description
