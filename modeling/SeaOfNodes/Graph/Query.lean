/-
  SeaOfNodes.Graph.Query

  Questions about a graph.  A node is *fixed* when its operation is, or when
  control reaches or leaves it; every other node *floats*.  A node *begins a
  block* when it is a start, a merge, or the target of a branch's outcome.
-/
import SeaOfNodes.Graph.Basic

namespace SeaOfNodes

namespace Graph

/-- The edges reaching a node whose role satisfies a test. -/
def inputsWhere (g : Graph) (id : NodeId) (keep : Role → Bool) : List Edge :=
  (g.inputs id).filter fun e => keep e.role

/-- The edges leaving a node whose role satisfies a test. -/
def outputsWhere (g : Graph) (id : NodeId) (keep : Role → Bool) : List Edge :=
  (g.outputs id).filter fun e => keep e.role

/-- The edges reaching a node under a role name. -/
def inputsNamed (g : Graph) (id : NodeId) (name : Role.Name) : List Edge :=
  g.inputsWhere id fun role => role.name = name

/-- The edges leaving a node under a role name. -/
def outputsNamed (g : Graph) (id : NodeId) (name : Role.Name) : List Edge :=
  g.outputsWhere id fun role => role.name = name

/-- The nodes from which control reaches a node. -/
def controlPredecessors (g : Graph) (id : NodeId) : List NodeId :=
  (g.inputsWhere id Role.isControl).map Edge.source

/-- The nodes to which control leaves a node. -/
def controlSuccessors (g : Graph) (id : NodeId) : List NodeId :=
  (g.outputsWhere id Role.isControl).map Edge.target

/-- The nodes whose values a node reads. -/
def valueInputs (g : Graph) (id : NodeId) : List NodeId :=
  (g.inputsWhere id Role.isValue).map Edge.source

/-- The nodes that read a node's value. -/
def consumers (g : Graph) (id : NodeId) : List NodeId :=
  (g.outputsWhere id Role.isValue).map Edge.target

/-- Whether control leaves a node. -/
def hasControlOutput (g : Graph) (id : NodeId) : Bool :=
  (g.outputs id).any fun e => e.role.isControl

/-- Whether a node is anchored in control flow. -/
def isFixed (g : Graph) (id : NodeId) : Bool :=
  (g.op id).isFixed || (g.inputs id).any (fun e => e.role.isControl) || g.hasControlOutput id

/-- Whether a node still needs a place in control flow. -/
def isFloating (g : Graph) (id : NodeId) : Bool := !g.isFixed id

/-- Whether a node is the first of a basic block. -/
def beginsBlock (g : Graph) (id : NodeId) : Bool :=
  g.op id = .start || g.op id = .merge ||
    (g.inputs id).any fun e => e.role.name = .ifTrue || e.role.name = .ifFalse

/-- Whether other nodes may read a value of a node. -/
def producesValue (g : Graph) (id : NodeId) : Bool := (g.op id).producesValue

/-- The merge that a phi chooses at: its first control predecessor that is
    one. -/
def phiMerge? (g : Graph) (phi : NodeId) : Option NodeId :=
  (g.controlPredecessors phi).find? fun pred => g.op pred = .merge

/-- The node that feeds the `n`-th control input of a merge.  A plain control
    input counts as input 0. -/
def mergePredecessor? (g : Graph) (merge : NodeId) (n : Int64) : Option NodeId :=
  ((g.inputsWhere merge Role.isControl).find? fun e =>
    e.role.slot = n || (n = 0 && e.role.index.isNone)).map Edge.source

/-- Where a value edge needs the value: at its target or, for a numbered operand
    of a phi, at the end of the merge's predecessor with that number. -/
def useSite (g : Graph) (e : Edge) : NodeId :=
  let atPredecessor : Option NodeId :=
    if g.op e.target = .phi ∧ e.role.name = .value then
      e.role.index.bind fun n => (g.phiMerge? e.target).bind fun merge => g.mergePredecessor? merge n
    else none
  atPredecessor.getD e.target

/-- The places where a node's value is needed, one for each value edge leaving
    it. -/
def useSites (g : Graph) (id : NodeId) : List NodeId :=
  (g.outputsWhere id Role.isValue).map g.useSite

end Graph

/-- What can be asked about one node. -/
structure NodeInfo where
  label : Label
  isFixed : Bool
  beginsBlock : Bool
  producesValue : Bool
  hasControlOutput : Bool
  controlPredecessors : List NodeId
  controlSuccessors : List NodeId
  valueInputs : List NodeId
  consumers : List NodeId
  useSites : List NodeId

/-- Everything that can be asked about a live node. -/
def Graph.info (g : Graph) (id : NodeId) : Except Misuse NodeInfo := do
  let _ ← g.require id
  return {
    label := g.label id
    isFixed := g.isFixed id
    beginsBlock := g.beginsBlock id
    producesValue := g.producesValue id
    hasControlOutput := g.hasControlOutput id
    controlPredecessors := g.controlPredecessors id
    controlSuccessors := g.controlSuccessors id
    valueInputs := g.valueInputs id
    consumers := g.consumers id
    useSites := g.useSites id
  }

end SeaOfNodes
