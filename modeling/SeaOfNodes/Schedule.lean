/-
  SeaOfNodes.Schedule

  Recovery of an execution order from a graph, in three phases: the partial
  order of the fixed nodes, the anchors of the floating ones, and the chains of
  the basic blocks.  Scheduling annotates the graph and leaves its nodes as they are.
-/
import SeaOfNodes.Schedule.Anchor
import SeaOfNodes.Schedule.Block

namespace SeaOfNodes.Schedule

/-- The phases of scheduling. -/
inductive Phase where
  | order
  | anchors
  | chains
deriving DecidableEq

/-- The name of a phase in messages. -/
def Phase.name : Phase → String
  | .order => "partial order"
  | .anchors => "global schedule"
  | .chains => "local schedule"

/-- Why scheduling stopped, and in which phase; none if the graph was refused
    before the first. -/
structure Failure where
  phase? : Option Phase
  cause : Error
deriving DecidableEq

/-- How a failed scheduling is reported. -/
def Failure.message (f : Failure) : String :=
  match f.phase? with
  | none => f.cause.message
  | some phase => phase.name ++ ": " ++ f.cause.message

/-- Refuse a graph without exactly one start, or one with schedule edges. -/
def checkSchedulable (g : Graph) : Except Error Unit :=
  let starts := (g.find .start).length
  if starts ≠ 1 then .error (.noStart starts)
  else
    match (g.ids.flatMap g.outputs).find? fun e => e.role.isSchedule with
    | some e => .error (.alreadyScheduled e)
    | none => .ok ()

/-- What scheduling did to a graph: the number of fixed and of floating nodes,
    the anchors and the blocks in the order they were made, and the phases that
    began. -/
structure Report where
  graph : Graph
  began : List Phase
  fixed : Nat
  floating : Nat
  placed : List Placement
  blocks : List Chained
  failure? : Option Failure
deriving DecidableEq

/-- Schedule a graph. -/
def run (g : Graph) : Report :=
  let fixed := (g.ids.filter g.isFixed).length
  let floating := (g.ids.filter g.isFloating).length
  match checkSchedulable g with
  | .error cause => ⟨g, [], fixed, floating, [], [], some ⟨none, cause⟩⟩
  | .ok () =>
    match orderFixed g with
    | ⟨g, .error cause⟩ => ⟨g, [.order], fixed, floating, [], [], some ⟨some .order, cause⟩⟩
    | ⟨g, .ok ()⟩ =>
      match anchorFloating g with
      | ⟨a, .error cause⟩ =>
        ⟨a.graph, [.order, .anchors], fixed, floating, a.placed, [], some ⟨some .anchors, cause⟩⟩
      | ⟨a, .ok ()⟩ =>
        match chainAll a.graph with
        | ⟨c, .error cause⟩ =>
          ⟨c.graph, [.order, .anchors, .chains], fixed, floating, a.placed, c.blocks,
            some ⟨some .chains, cause⟩⟩
        | ⟨c, .ok ()⟩ =>
          ⟨c.graph, [.order, .anchors, .chains], fixed, floating, a.placed, c.blocks, none⟩

end SeaOfNodes.Schedule
