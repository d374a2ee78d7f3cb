/-
  SeaOfNodes.Compile

  Compilation of one graph: passes, scheduling and linearization, in this order
  and up to the first that fails.  A trace keeps what each stage did.
-/
import SeaOfNodes.Listing.Linearize
import SeaOfNodes.Pass.Runner
import SeaOfNodes.Schedule
import SeaOfNodes.Settings.Basic

namespace SeaOfNodes

/-- What to do with every graph. -/
structure Compiler where
  passes : List Pass
  fixpoint : Bool
  limit : Int64
deriving DecidableEq

namespace Compiler

/-- The compiler that settings ask for. -/
def ofSettings (s : Settings) (registry : Pass.Registry) : Except Pass.Unknown Compiler :=
  (registry.lookup s.passes).map fun passes => ⟨passes, s.fixpoint, s.maxIterations⟩

/-- Why compilation stopped. -/
inductive Error where
  | pass (cause : Pass.Failure)
  | round (number : Nat) (cause : Pass.Failure)
  | schedule (cause : Schedule.Failure)
  | linearize (cause : Listing.Error)
deriving DecidableEq

/-- How a failed compilation is reported. -/
def Error.message : Error → String
  | .pass cause => cause.message
  | .round number cause => "round " ++ toString number ++ ": " ++ cause.message
  | .schedule cause => "schedule: " ++ cause.message
  | .linearize cause => "linearize: " ++ cause.message

/-- How the passes ran. -/
inductive PassRun where
  | once (report : Pass.Report)
  | repeated (rounds : Pass.Rounds)
deriving DecidableEq

/-- The graph after the passes. -/
def PassRun.graph : PassRun → Graph
  | .once report => report.graph
  | .repeated rounds => rounds.graph

/-- The failure of a pass. -/
def PassRun.error? : PassRun → Option Error
  | .once report => report.failure?.map .pass
  | .repeated rounds => rounds.failure?.map (.round rounds.rounds.length)

/-- Run the passes. -/
def runPasses (c : Compiler) (g : Graph) : PassRun :=
  if c.fixpoint then .repeated (Pass.fixpoint c.passes c.limit g) else .once (Pass.runAll c.passes g)

/-- What compilation did: how the passes ran, the schedule if they succeeded, and
    the listing if that did. -/
structure Trace where
  passRun : PassRun
  schedule? : Option Schedule.Report
  listing? : Option (Outcome Graph Listing.Error (List Listing.Block))

/-- Compile a graph. -/
def trace (c : Compiler) (g : Graph) : Trace :=
  let passRun := c.runPasses g
  if passRun.error?.isSome then ⟨passRun, none, none⟩
  else
    let schedule := Schedule.run passRun.graph
    if schedule.failure?.isSome then ⟨passRun, some schedule, none⟩
    else ⟨passRun, some schedule, some (Listing.linearize schedule.graph)⟩

/-- The listing of a traced compilation, or why there is none. -/
def Trace.result (t : Trace) : Except Error (List Listing.Block) :=
  match t.passRun.error? with
  | some cause => .error cause
  | none =>
    match t.schedule?.bind Schedule.Report.failure? with
    | some cause => .error (.schedule cause)
    | none =>
      match t.listing? with
      | some listing => listing.result.mapError .linearize
      | none => .ok []

/-- The graph that a compilation leaves behind. -/
def Trace.graph (t : Trace) : Graph :=
  match t.listing?, t.schedule? with
  | some listing, _ => listing.state
  | none, some schedule => schedule.graph
  | none, none => t.passRun.graph

/-- The listing of a graph. -/
def compile (c : Compiler) (g : Graph) : Except Error (List Listing.Block) := (c.trace g).result

end Compiler

end SeaOfNodes
