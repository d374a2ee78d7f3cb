/-
  SeaOfNodes.Listing.Linearize

  From a scheduled graph to a listing: chains, registers, instructions, block
  indices in place of nodes, and simplified endings.  The graph changes only in
  the register properties.
-/
import SeaOfNodes.Listing.Emit
import SeaOfNodes.Listing.Registers
import SeaOfNodes.Listing.Simplify
import SeaOfNodes.Outcome

namespace SeaOfNodes.Listing

/-- The index of the block that a node begins. -/
def Layout.blockOf (layout : Layout) (node : NodeId) : Except Error Operand :=
  match layout.index.lookup node with
  | some index => .ok (.ofBlock (Int64.ofNat index))
  | none => .error (.unresolvedBlock node)

/-- Put a block index in the place of a reference to a node. -/
def Layout.resolve (layout : Layout) : Ref → Except Error Operand
  | .register r => .ok (.ofRegister r)
  | .selector name => .ok (.ofSelector name)
  | .entry node => layout.blockOf node
  | .incoming merge n =>
    match layout.incoming.lookup (merge, n) with
    | some first => layout.blockOf first
    | none => .error (.unresolvedPhi (.unknownInput n merge))

/-- Resolve the operands of an instruction. -/
def Layout.resolveDraft (layout : Layout) (d : Draft) : Except Error Instr := do
  return ⟨d.op, d.dest, d.imms, d.args, ← d.trailing.mapM layout.resolve⟩

/-- The chains of a graph in block order, with their layout. -/
def plan (g : Graph) : Except Error (List Chain × Layout) := do
  let chains ← collectChains g
  checkCoverage g chains
  let ordered ← orderChains chains
  return (ordered, ← layoutOf g ordered)

/-- The blocks of a graph whose values are numbered. -/
def emitBlocks (g : Graph) (chains : List Chain) (layout : Layout) : Except Error (List Block) := do
  let drafts ← chains.mapM (emitChain g)
  let blocks ← drafts.mapM fun drafts => drafts.mapM layout.resolveDraft
  return simplify blocks

/-- Turn a scheduled graph into a listing.  Registers are numbered once the
    blocks are known, also if an instruction turns out to be bad. -/
def linearize (g : Graph) : Outcome Graph Error (List Block) :=
  match plan g with
  | .error cause => .failed g cause
  | .ok (chains, layout) =>
    let g := assignRegisters g chains
    ⟨g, emitBlocks g chains layout⟩

end SeaOfNodes.Listing
