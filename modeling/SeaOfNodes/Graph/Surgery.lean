/-
  SeaOfNodes.Graph.Surgery

  The operations that change a graph.  Each one checks what it was given before
  it touches anything, so a refused call leaves the graph as it was.  Edges are
  redirected in place: the order of a neighbour's other edges survives.
-/
import SeaOfNodes.Graph.Basic

namespace SeaOfNodes

/-- Put `new` in the place of the first `old`. -/
def replaceFirst {α : Type} [DecidableEq α] (old new : α) : List α → List α
  | [] => []
  | x :: rest => if x = old then new :: rest else x :: replaceFirst old new rest

namespace Node

/-- A node with one more edge reaching it. -/
def addInput (e : Edge) (n : Node) : Node := { n with inputs := n.inputs ++ [e] }

/-- A node with one more edge leaving it. -/
def addOutput (e : Edge) (n : Node) : Node := { n with outputs := n.outputs ++ [e] }

/-- A node without the first of the equal edges reaching it. -/
def eraseInput (e : Edge) (n : Node) : Node := { n with inputs := n.inputs.erase e }

/-- A node without the first of the equal edges leaving it. -/
def eraseOutput (e : Edge) (n : Node) : Node := { n with outputs := n.outputs.erase e }

/-- A node with the first of the equal edges reaching it redirected. -/
def redirectInput (old new : Edge) (n : Node) : Node :=
  { n with inputs := replaceFirst old new n.inputs }

/-- A node with the first of the equal edges leaving it redirected. -/
def redirectOutput (old new : Edge) (n : Node) : Node :=
  { n with outputs := replaceFirst old new n.outputs }

end Node

namespace Graph

/-- Append a node to the arena.  The answer is its handle and the graph. -/
def addNode (g : Graph) (op : Op) (props : Props) : NodeId × Graph :=
  (Int.ofNat g.arena.size, ⟨g.arena.push (some ⟨op, props, [], []⟩)⟩)

/-- Store an edge at both of its ends. -/
def linkEdge (g : Graph) (e : Edge) : Graph :=
  (g.modify e.source (Node.addOutput e)).modify e.target (Node.addInput e)

/-- Take one instance of an edge away from both of its ends. -/
def unlinkEdge (g : Graph) (e : Edge) : Graph :=
  (g.modify e.source (Node.eraseOutput e)).modify e.target (Node.eraseInput e)

/-- Add an edge from one live node to another. -/
def connect (g : Graph) (e : Edge) : Except Misuse Graph := do
  let _ ← g.require e.source
  let _ ← g.require e.target
  return g.linkEdge e

/-- Check that an edge is stored at both of its ends. -/
def requireEdge (g : Graph) (e : Edge) : Except Misuse Unit := do
  let source ← g.require e.source
  let target ← g.require e.target
  if e ∈ source.outputs ∧ e ∈ target.inputs then return () else throw (.missingEdge e)

/-- Remove one instance of an edge. -/
def disconnect (g : Graph) (e : Edge) : Except Misuse Graph := do
  g.requireEdge e
  return g.unlinkEdge e

/-- Where an end of an edge goes when `old` is replaced. -/
def rename (old new id : NodeId) : NodeId := if id = old then new else id

/-- Move an edge that reached `old` to `new`.  Its source keeps it in place. -/
def moveInput (old new : NodeId) (g : Graph) (e : Edge) : Graph :=
  let moved : Edge := ⟨rename old new e.source, new, e.role⟩
  let g := if e.source = old then g else g.modify e.source (Node.redirectOutput e moved)
  g.modify new (Node.addInput moved)

/-- Move an edge that left `old` to `new`.  Its target keeps it in place. -/
def moveOutput (old new : NodeId) (g : Graph) (e : Edge) : Graph :=
  let moved : Edge := ⟨new, rename old new e.target, e.role⟩
  let g := if e.target = old then g else g.modify e.target (Node.redirectInput e moved)
  g.modify new (Node.addOutput moved)

/-- Move every edge of `old` onto `new` and drop `old`. -/
def replace (g : Graph) (old new : NodeId) : Except Misuse Graph := do
  let node ← g.require old
  let _ ← g.require new
  if old = new then throw (.selfReplacement (g.label old))
  let g := node.inputs.foldl (moveInput old new) g
  let g := node.outputs.foldl (moveOutput old new) g
  return g.drop old

/-- Move a value edge that left `old` to `new`, keeping its place at the
    consumer. -/
def moveUse (new : NodeId) (g : Graph) (e : Edge) : Graph :=
  let moved : Edge := ⟨new, e.target, e.role⟩
  (g.modify e.target (Node.redirectInput e moved)).modify new (Node.addOutput moved)

/-- Move every value edge that leaves `old` onto `new`.  All other edges of
    `old` stay. -/
def replaceUses (g : Graph) (old new : NodeId) : Except Misuse Graph := do
  let node ← g.require old
  let _ ← g.require new
  if old = new then throw (.selfForwarding (g.label old))
  let uses := node.outputs.filter fun e => e.role.isValue
  let kept := node.outputs.filter fun e => !e.role.isValue
  let g := uses.foldl (moveUse new) g
  return g.modify old fun n => { n with outputs := kept }

/-- Splice `mid` onto an edge.  The target now receives from `mid` under the
    edge's role; `mid` receives from the source under the plain control role or
    the plain value role, whichever fits the edge. -/
def interdict (g : Graph) (e : Edge) (mid : NodeId) : Except Misuse Graph := do
  let _ ← g.require mid
  g.requireEdge e
  let inbound := if e.role.isControl then Role.control else Role.value
  let head : Edge := ⟨e.source, mid, inbound⟩
  let tail : Edge := ⟨mid, e.target, e.role⟩
  let g := g.modify e.source (Node.redirectOutput e head)
  let g := g.modify e.target (Node.redirectInput e tail)
  return (g.modify mid (Node.addInput head)).modify mid (Node.addOutput tail)

/-- Disconnect every edge of a node and drop it. -/
def remove (g : Graph) (id : NodeId) : Except Misuse Graph := do
  let _ ← g.require id
  let g := (g.inputs id).foldl unlinkEdge g
  let g := (g.outputs id).foldl unlinkEdge g
  return g.drop id

end Graph

end SeaOfNodes
