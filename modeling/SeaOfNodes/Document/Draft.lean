/-
  SeaOfNodes.Document.Draft

  The graphs that a file declares.  A file may hold other things beside its
  `graph` blocks; a graph holds `node` blocks only, and a node any attributes and
  blocks, of which the `input` blocks are its inbound edges.  The properties of a
  draft are not evaluated yet.
-/
import SeaOfNodes.Description.Basic
import SeaOfNodes.Document.Evaluate

namespace SeaOfNodes.Document

open Description (Input Value)

/-- A node with its properties as they are written. -/
structure NodeDraft where
  op : String
  name : String
  inputs : List Input
  body : Body

/-- A graph with its nodes. -/
structure GraphDraft where
  name : String
  nodes : List NodeDraft

/-- The text of a constant expression. -/
def constantText? (e : Expr) : Option String := do
  match (← constant? e).convertTo? .string with
  | some (.string s) => some s
  | _ => none

/-- An inbound edge: its label is the role, and its only attribute the source. -/
def readInput? (b : Block) : Option Input :=
  match b.labels, b.body.attributes, b.body.blocks with
  | [role], [(name, e)], [] => if name = "from" then (constantText? e).map (⟨role, ·⟩) else none
  | _, _, _ => none

/-- A node: its labels are the operation and the name. -/
def readNode? (b : Block) : Option NodeDraft :=
  match b.labels with
  | [op, name] => do
    let inputs ← (b.body.blocks.filter (·.type = "input")).mapM readInput?
    return ⟨op, name, inputs, b.body⟩
  | _ => none

/-- A graph: its label is the name. -/
def readGraph? (b : Block) : Option GraphDraft :=
  match b.labels, b.body.attributes with
  | [name], [] =>
    if b.body.blocks.all (·.type = "node") then
      (b.body.blocks.mapM readNode?).map (⟨name, ·⟩)
    else none
  | _, _ => none

/-- The graphs of a file. -/
def readGraphs? (b : Body) : Option (List GraphDraft) :=
  (b.blocks.filter (·.type = "graph")).mapM readGraph?

end SeaOfNodes.Document
