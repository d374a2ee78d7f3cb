/-
  SeaOfNodes.Schedule.Anchor

  The places of the floating nodes.  A floating node is anchored to a node it
  runs before, once all places that need its value are placed themselves.  A
  value needed in one place is anchored there.  One needed in several may be
  anchored to any placed node but a start that every placed input reaches by
  control and that reaches every use; of these the one whose fixed anchor has
  the highest number wins, and among equals the lowest handle.
-/
import SeaOfNodes.Graph.Surgery
import SeaOfNodes.Schedule.Closure
import SeaOfNodes.Schedule.Sequence

namespace SeaOfNodes.Schedule

/-- Follow anchors from a node to a fixed one, for a bounded number of steps. -/
def followAnchors (g : Graph) (origin : NodeId) : (steps : Nat) → NodeId → Except Error NodeId
  | 0, _ => .error (.missingAnchor (.endless (g.label origin)))
  | steps + 1, id =>
    if g.isFixed id then .ok id
    else
      match g.outputsNamed id .globalSchedule with
      | [] => .error (.missingSchedule (g.label id))
      | [e] => followAnchors g origin steps e.target
      | edges => .error (.missingAnchor (.several (g.label id) edges.length))

/-- The fixed node that a node's anchors lead to.  A fixed node is its own
    anchor. -/
def fixedAnchor (g : Graph) (id : NodeId) : Except Error NodeId :=
  followAnchors g id (g.size + 1) id

/-- Whether a node is fixed or anchored. -/
def isPlaced (g : Graph) (id : NodeId) : Bool :=
  g.isFixed id || !(g.outputsNamed id .globalSchedule).isEmpty

/-- Whether every place that needs a node's value is placed. -/
def isReady (g : Graph) (id : NodeId) : Bool := (g.useSites id).all (isPlaced g)

/-- How many edges leave the nodes of a graph. -/
def edgeCount (g : Graph) : Nat := (g.ids.flatMap g.outputs).length

/-- Whether control flows from one node to another, possibly in no step. -/
def controlReaches (g : Graph) (source target : NodeId) : Bool :=
  meets g.controlSuccessors target (edgeCount g + 1) [source] []

/-- Whether control flows from the fixed anchor of one node to that of
    another. -/
def anchorReaches (g : Graph) (a b : NodeId) : Except Error Bool := do
  let source ← fixedAnchor g a
  let target ← fixedAnchor g b
  return controlReaches g source target

/-- Whether a test that may fail holds of every member of a list; it stops at the
    first that it does not hold of. -/
def allHold (test : NodeId → Except Error Bool) : List NodeId → Except Error Bool
  | [] => .ok true
  | id :: rest => do
    if ← test id then allHold test rest else return false

/-- Whether control leads from every placed input to a candidate, and from the
    candidate to every placed consumer. -/
def isCandidate (g : Graph) (candidate : NodeId) (inputs consumers : List NodeId) :
    Except Error Bool := do
  let reached ← allHold (fun input => anchorReaches g input candidate) (inputs.filter (isPlaced g))
  if reached then
    allHold (fun consumer => anchorReaches g candidate consumer) (consumers.filter (isPlaced g))
  else return false

/-- The members of a list that pass a test that may fail. -/
def filterHold (test : NodeId → Except Error Bool) : List NodeId → Except Error (List NodeId)
  | [] => .ok []
  | id :: rest => do
    let keep ← test id
    let others ← filterHold test rest
    return if keep then id :: others else others

/-- The distinct members of a list, ascending. -/
def distinct (ids : List NodeId) : List NodeId := (ids.mergeSort (· ≤ ·)).eraseReps

/-- The nodes a floating node may be anchored to, ascending. -/
def candidates (g : Graph) (id : NodeId) : Except Error (List NodeId) :=
  match distinct (g.useSites id) with
  | [] => .error (.stuck (.noConsumers (g.label id)))
  | [site] => .ok [site]
  | sites =>
    let inputs := distinct (g.valueInputs id)
    filterHold (fun c => isCandidate g c inputs sites)
      (g.ids.filter fun c => c ≠ id && g.op c ≠ .start && isPlaced g c)

/-- The candidate whose fixed anchor has the highest number above `bound`, the
    first of several; `best` if there is none. -/
def latest (g : Graph) (best : NodeId) (bound : Int64) : List NodeId → Except Error NodeId
  | [] => .ok best
  | c :: rest => do
    let n ← sequence g (← fixedAnchor g c)
    if bound < n then latest g c n rest else latest g best bound rest

/-- The anchor of a floating node, or none if it has to wait. -/
def anchorFor (g : Graph) (id : NodeId) : Except Error (Option NodeId) :=
  if !isReady g id then .ok none
  else do
    match ← candidates g id with
    | [] => throw (.stuck (.noAnchor (g.label id)))
    -- A negative handle stands for no anchor: numbers below zero never win.
    | found => return some (← latest g (-1) (-1) found)

/-- A floating node and its anchor. -/
structure Placement where
  node : NodeId
  anchor : NodeId
deriving DecidableEq

/-- A graph in which floating nodes are being anchored, and those anchored so
    far. -/
structure Anchoring where
  graph : Graph
  placed : List Placement
deriving DecidableEq

/-- Anchor a node. -/
def Anchoring.place (a : Anchoring) (id anchor : NodeId) : Except Error Anchoring :=
  match a.graph.connect ⟨id, anchor, .globalSchedule⟩ with
  | .ok g => .ok ⟨g, a.placed ++ [⟨id, anchor⟩]⟩
  | .error cause => .error (.misuse cause)

/-- Anchor what can be anchored, in the order given.  The answer is what has to
    wait. -/
def anchorSweep (a : Anchoring) : List NodeId → Outcome Anchoring Error (List NodeId)
  | [] => .done a []
  | id :: rest =>
    match anchorFor a.graph id with
    | .error cause => .failed a cause
    | .ok none => (anchorSweep a rest).map (id :: ·)
    | .ok (some anchor) =>
      match a.place id anchor with
      | .error cause => .failed a cause
      | .ok a => anchorSweep a rest

/-- Sweep until nothing waits. -/
def anchorLoop : (sweeps : Nat) → Anchoring → (waiting : List NodeId) → Outcome Anchoring Error Unit
  | _, a, [] => .done a ()
  | 0, a, _ => .done a ()
  | sweeps + 1, a, waiting =>
    (anchorSweep a waiting).andThen fun a left =>
      match left with
      | [] => .done a ()
      | first :: _ =>
        if left.length = waiting.length then
          .failed a (.stuck (.neverReady left.length (a.graph.label first)))
        else anchorLoop sweeps a left

/-- Anchor every floating node. -/
def anchorFloating (g : Graph) : Outcome Anchoring Error Unit :=
  let floating := g.ids.filter g.isFloating
  anchorLoop floating.length ⟨g, []⟩ floating

end SeaOfNodes.Schedule
