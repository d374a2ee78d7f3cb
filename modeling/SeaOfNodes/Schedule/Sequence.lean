/-
  SeaOfNodes.Schedule.Sequence

  The partial order of the fixed nodes.  A start gets number 0 and every other
  fixed node one more than the largest number among its control predecessors,
  so a node that runs after another has the larger number.  Nodes whose
  predecessors are not numbered yet wait for the next sweep; a sweep that
  numbers nothing has met a cycle.
-/
import SeaOfNodes.Graph.Query
import SeaOfNodes.Outcome
import SeaOfNodes.Schedule.Error

namespace SeaOfNodes.Schedule

/-- The number of a node. -/
def sequence (g : Graph) (id : NodeId) : Except Error Int64 :=
  match (g.props id).int? Props.sequence with
  | some n => .ok n
  | none => .error (.missingSequence (.noSequence (g.label id)))

/-- The largest number among nodes, but at least -1, if all of them have one. -/
def highestSequence? (g : Graph) : List NodeId → Option Int64
  | [] => some (-1)
  | id :: rest => do
    let n ← (g.props id).int? Props.sequence
    return max (← highestSequence? g rest) n

/-- The number to give a fixed node, or none if it has to wait. -/
def nextSequence (g : Graph) (id : NodeId) : Except Error (Option Int64) :=
  if g.op id = .start then .ok (some 0)
  else
    match g.controlPredecessors id with
    | [] => .error (.missingSequence (.noPredecessor (g.label id)))
    | preds => .ok ((highestSequence? g preds).map (· + 1))

/-- Number what can be numbered, in the order given.  The answer is what has to
    wait. -/
def orderSweep (g : Graph) : List NodeId → Outcome Graph Error (List NodeId)
  | [] => .done g []
  | id :: rest =>
    match nextSequence g id with
    | .error cause => .failed g cause
    | .ok (some n) => orderSweep (g.setProp id Props.sequence (.int n)) rest
    | .ok none => (orderSweep g rest).map (id :: ·)

/-- Sweep until nothing waits. -/
def orderLoop : (sweeps : Nat) → Graph → (waiting : List NodeId) → Outcome Graph Error Unit
  | _, g, [] => .done g ()
  | 0, g, _ => .done g ()
  | sweeps + 1, g, waiting =>
    (orderSweep g waiting).andThen fun g left =>
      match left with
      | [] => .done g ()
      | first :: _ =>
        if left.length = waiting.length then
          .failed g (.cyclicControl left.length (g.label first))
        else orderLoop sweeps g left

/-- Number every fixed node.  A sweep that does not fail shortens the list, so
    as many sweeps as there are fixed nodes suffice. -/
def orderFixed (g : Graph) : Outcome Graph Error Unit :=
  let fixed := g.ids.filter g.isFixed
  orderLoop fixed.length g fixed

end SeaOfNodes.Schedule
