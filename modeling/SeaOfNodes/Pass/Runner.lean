/-
  SeaOfNodes.Pass.Runner

  Running lists of passes: once each in order, or round after round until a
  round changes nothing.  A report says how far a run came, and holds the graph
  as the last finished pass left it.
-/
import SeaOfNodes.Pass.Registry

namespace SeaOfNodes.Pass

/-- A pass that finished: how many places it changed, and the number of live
    nodes afterwards. -/
structure Finished where
  pass : Pass
  count : Nat
  nodes : Nat
deriving DecidableEq

/-- A pass that failed. -/
structure Failure where
  pass : Pass
  cause : Error
deriving DecidableEq

/-- How a failed pass of a list is reported. -/
def Failure.message (f : Failure) : String := "pass " ++ f.pass.name ++ ": " ++ f.cause.message

/-- What a list of passes did. -/
structure Report where
  graph : Graph
  finished : List Finished
  failure? : Option Failure
deriving DecidableEq

/-- Whether a finished pass changed the graph. -/
def Report.modified (r : Report) : Bool := r.finished.any fun f => 0 < f.count

/-- Apply every pass once, in order, up to the first that fails. -/
def runAll : List Pass → Graph → Report
  | [], g => ⟨g, [], none⟩
  | p :: rest, g =>
    match p.run g with
    | .error cause => ⟨g, [], some ⟨p, cause⟩⟩
    | .ok r =>
      let later := runAll rest r.graph
      { later with finished := ⟨p, r.count, r.graph.size⟩ :: later.finished }

/-- What rounds of a list of passes did. -/
structure Rounds where
  graph : Graph
  /-- The reports of the rounds, the failing one included. -/
  rounds : List Report
deriving DecidableEq

/-- The failure of the last round. -/
def Rounds.failure? (r : Rounds) : Option Failure := r.rounds.getLast?.bind Report.failure?

/-- How a failed round is reported. -/
def Rounds.message (r : Rounds) (f : Failure) : String :=
  "round " ++ toString r.rounds.length ++ ": " ++ f.message

/-- Run rounds until one changes nothing or fails, at most `limit`. -/
def runRounds (passes : List Pass) : (limit : Nat) → Graph → Rounds
  | 0, g => ⟨g, []⟩
  | limit + 1, g =>
    let round := runAll passes g
    if round.failure?.isSome || !round.modified then ⟨round.graph, [round]⟩
    else
      let later := runRounds passes limit round.graph
      { later with rounds := round :: later.rounds }

/-- Run rounds until one changes nothing or fails, at most `limit`; a limit
    below one means none. -/
def fixpoint (passes : List Pass) (limit : Int64) (g : Graph) : Rounds :=
  runRounds passes limit.toInt.toNat g

end SeaOfNodes.Pass
