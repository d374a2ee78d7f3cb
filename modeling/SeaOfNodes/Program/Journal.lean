/-
  SeaOfNodes.Program.Journal

  What is logged about the compilation of a graph, read off its trace.
-/
import SeaOfNodes.Compile
import SeaOfNodes.Log.Event

namespace SeaOfNodes.Program

open Log (Event debug)

/-! ## Passes -/

/-- What a pass itself says when it is through. -/
def passRemark (f : Pass.Finished) : List Event :=
  match f.pass with
  | .deadCode =>
    if 0 < f.count then [debug "Dead nodes removed." [("count", .number f.count)]] else []
  | .noChoicePhis =>
    if 0 < f.count then [debug "No-choice phis removed." [("count", .number f.count)]] else []
  | .taggingLowering => [debug "Tagging lowered." [("modified", .flag (0 < f.count))]]

/-- A pass that finished. -/
def passEvents (f : Pass.Finished) : List Event :=
  passRemark f ++
    [debug "Pass finished."
      [("pass", .text f.pass.name), ("modified", .flag (0 < f.count)), ("nodes", .number f.nodes)]]

/-- The passes that finished. -/
def passRunEvents : Compiler.PassRun → List Event
  | .once report => report.finished.flatMap passEvents
  | .repeated rounds =>
    rounds.rounds.flatMap (fun report => report.finished.flatMap passEvents) ++
      if rounds.failure?.isSome then []
      else [debug "Passes settled." [("rounds", .number rounds.rounds.length)]]

/-! ## Scheduling -/

/-- What a phase begins with, does, and ends with. -/
def phaseEvents (r : Schedule.Report) : Schedule.Phase → List Event × List Event × Event
  | .order =>
    ([debug "Partial order started." [("fixed_nodes", .number r.fixed)]], [],
      debug "Partial order finished." [])
  | .anchors =>
    ([debug "Global schedule started." [("floating_nodes", .number r.floating)]],
      r.placed.map fun p =>
        debug "Node anchored."
          [("node", .text (r.graph.label p.node).text), ("anchor", .text (r.graph.label p.anchor).text)],
      debug "Global schedule finished." [])
  | .chains =>
    ([],
      r.blocks.map fun b =>
        debug "Block scheduled."
          [("first", .text (r.graph.label b.first).text), ("nodes", .number b.size)],
      debug "Local schedule finished." [("blocks", .number r.blocks.length)])

/-- Whether a phase did not end. -/
def failedIn (r : Schedule.Report) (phase : Schedule.Phase) : Bool :=
  (r.failure?.bind Schedule.Failure.phase?) = some phase

/-- The phases of scheduling, as far as they came. -/
def scheduleEvents (r : Schedule.Report) : List Event :=
  (r.began.flatMap fun phase =>
    let (start, steps, finish) := phaseEvents r phase
    start ++ steps ++ if failedIn r phase then [] else [finish]) ++
  if r.failure?.isSome then [] else [debug "Graph scheduled." [("nodes", .number r.graph.size)]]

/-! ## Compilation -/

/-- A listing that came out. -/
def listingEvents (graph : Graph) (blocks : List Listing.Block) : List Event :=
  [debug "Graph linearized." [("blocks", .number blocks.length)],
   debug "Graph compiled." [("nodes", .number graph.size), ("blocks", .number blocks.length)]]

/-- A compilation. -/
def traceEvents (t : Compiler.Trace) : List Event :=
  passRunEvents t.passRun ++ (t.schedule?.map scheduleEvents).getD [] ++
    match t.listing? with
    | some ⟨graph, .ok blocks⟩ => listingEvents graph blocks
    | _ => []

end SeaOfNodes.Program
