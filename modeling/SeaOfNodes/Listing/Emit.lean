/-
  SeaOfNodes.Listing.Emit

  The instructions of a chain.  Starts and merges emit nothing, a finish becomes
  a return, and a block that flows into a merge ends with a jump.  Blocks are
  still named by the nodes that begin them.
-/
import SeaOfNodes.Listing.Chain
import SeaOfNodes.Listing.Instruction
import SeaOfNodes.Listing.StableSort

namespace SeaOfNodes.Listing

/-- The register of a node that an instruction reads. -/
def registerOf (g : Graph) (id : NodeId) : Except Error Register :=
  match (g.props id).int? Props.register with
  | some r => .ok r
  | none => .error (.badOperand (.noRegister (g.label id)))

/-- The source of the only edge reaching a node under a role. -/
def soleInput (g : Graph) (id : NodeId) (role : Role) : Except Error NodeId :=
  match g.inputsWhere id (· = role) with
  | [e] => .ok e.source
  | edges => .error (.badOperand (.inputCount (g.label id) edges.length role))

/-- The target of the only edge leaving a node under a role name. -/
def soleOutput (g : Graph) (id : NodeId) (name : Role.Name) : Except Error NodeId :=
  match g.outputsNamed id name with
  | [e] => .ok e.target
  | edges => .error (.badOperand (.outputCount (g.label id) edges.length name))

/-- Whether one edge goes before another: the difference of their numbers, taken
    in 64 bits with wrapping, is negative. -/
def goesBefore (a b : Edge) : Bool := a.role.slot - b.role.slot < 0

/-- Edges in the order of their numbers, equal ones in the given order. -/
def sortEdges (edges : List Edge) : List Edge := StableSort.sort goesBefore edges

/-- The properties that become immediates, in this order. -/
def immediateProps : List String := [Props.line, Props.number, Props.value]

/-- The immediates of a node. -/
def immediates (g : Graph) (id : NodeId) : List Literal :=
  immediateProps.filterMap (g.props id).get?

/-- The value inputs of a node in operand order. -/
def operandEdges (g : Graph) (id : NodeId) : List Edge := sortEdges (g.inputsNamed id .value)

/-- The register that an instruction writes. -/
def destination (g : Graph) (id : NodeId) : Except Error Register :=
  if g.producesValue id then
    match (g.props id).int? Props.register with
    | some r => .ok r
    | none => .error (.badOperand (.noDestination (g.label id)))
  else .ok noRegister

/-- The pair of a phi for one operand: the block control came from, and the
    register. -/
def phiPair (g : Graph) (phi merge : NodeId) (e : Edge) : Except Error (List Ref) :=
  match e.role.index with
  | none => .error (.badOperand (.unnumbered (g.label phi)))
  | some n => do return [.incoming merge n, .register (← registerOf g e.source)]

/-- The operands of a phi. -/
def phiOperands (g : Graph) (phi : NodeId) : Except Error (List Ref) :=
  match g.phiMerge? phi with
  | none => .error (.unresolvedPhi (.noMerge (g.label phi)))
  | some merge => do return (← (operandEdges g phi).mapM (phiPair g phi merge)).flatten

/-- The operands of a branch: the condition and the two blocks. -/
def branchOperands (g : Graph) (id : NodeId) : Except Error (List Ref) := do
  let condition ← registerOf g (← soleInput g id .condition)
  let ifTrue ← soleOutput g id .ifTrue
  let ifFalse ← soleOutput g id .ifFalse
  return [.register condition, .entry ifTrue, .entry ifFalse]

/-- How many arguments a send has: as its property says, else as many as there
    are argument edges. -/
def argumentCount (g : Graph) (id : NodeId) : Nat :=
  match (g.props id).int? Props.argumentCount with
  | some n => n.toInt.toNat
  | none => (g.inputsNamed id .arg).length

/-- The operands of a send: receiver, method and arguments.  Every argument has
    an edge of its own, so among one more than the argument edges one is
    missing, and no further argument is looked at. -/
def sendOperands (g : Graph) (id : NodeId) : Except Error (List Ref) := do
  let receiver ← registerOf g (← soleInput g id .receiver)
  let name ←
    match (g.props id).str? Props.selector with
    | some name => pure name
    | none => throw (.badOperand (.noSelector (g.label id)))
  let count := min (argumentCount g id) ((g.inputsNamed id .arg).length + 1)
  let args ← (List.range count).mapM fun n => do
    return Ref.register (← registerOf g (← soleInput g id (.arg (Int64.ofNat n))))
  return .register receiver :: .selector name :: args

/-- The instruction of a node. -/
def emitNode (g : Graph) (id : NodeId) : Except Error Draft := do
  let op := g.op id
  let dest ← destination g id
  let imms := immediates g id
  if op = .phi then
    return ⟨opcode op, dest, imms, [], ← phiOperands g id⟩
  else
    let args ← (operandEdges g id).mapM fun e => registerOf g e.source
    let trailing ←
      if op = .branch then branchOperands g id
      else if op = .send then sendOperands g id
      else pure []
    return ⟨opcode op, dest, imms, args, trailing⟩

/-- Whether a node emits an instruction. -/
def emits (g : Graph) (id : NodeId) : Bool := g.op id ≠ .start && g.op id ≠ .merge

/-- Whether a block that ends with this instruction is complete. -/
def closesBlock (i : Draft) : Bool := i.op = returnOp || i.op = branchOp

/-- The instructions of a chain. -/
def emitChain (g : Graph) (c : Chain) : Except Error (List Draft) := do
  let body ← (c.nodes.filter (emits g)).mapM (emitNode g)
  if (body.getLast?.map closesBlock).getD false then return body
  match c.merge? with
  | none => throw (.fallsOffBlock (g.label c.first))
  | some merge => return body ++ [⟨jumpOp, noRegister, [], [], [.entry merge]⟩]

end SeaOfNodes.Listing
