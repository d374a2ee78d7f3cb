/-
  SeaOfNodes.Listing.Registers

  Numbering of values.  Every value-producing node without a register property
  gets the next number, in the order of emission; numbers go on after the
  highest one present, computed with 64-bit integers that wrap.
-/
import SeaOfNodes.Graph.Query
import SeaOfNodes.Listing.Chain

namespace SeaOfNodes.Listing

/-- One past the highest register present, but at least `next`. -/
def firstFree (g : Graph) (next : Int64) : List NodeId → Int64
  | [] => next
  | id :: rest =>
    match (g.props id).int? Props.register with
    | some r => firstFree g (if next ≤ r then r + 1 else next) rest
    | none => firstFree g next rest

/-- Whether a node still needs a register. -/
def needsRegister (g : Graph) (id : NodeId) : Bool :=
  g.producesValue id && !(g.props id).has Props.register

/-- Number the nodes of a list that need it, from `next` up. -/
def numberNodes (g : Graph) (next : Int64) : List NodeId → Graph
  | [] => g
  | id :: rest =>
    if needsRegister g id then
      numberNodes (g.setProp id Props.register (.int next)) (next + 1) rest
    else numberNodes g next rest

/-- Number the values of all chains. -/
def assignRegisters (g : Graph) (chains : List Chain) : Graph :=
  numberNodes g (firstFree g 0 g.ids) (chains.flatMap Chain.nodes)

end SeaOfNodes.Listing
