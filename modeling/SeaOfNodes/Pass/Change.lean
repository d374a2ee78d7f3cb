/-
  SeaOfNodes.Pass.Change

  What a pass over a graph leaves behind, and why one may stop.
-/
import SeaOfNodes.Graph.Surgery

namespace SeaOfNodes.Pass

/-- The graph after a pass, and how many places the pass changed. -/
structure Change where
  graph : Graph
  count : Nat
deriving DecidableEq

/-- Whether a pass changed anything. -/
def Change.modified (r : Change) : Bool := 0 < r.count

/-- Why a pass stopped. -/
inductive Error where
  /-- A node to be replaced does not have exactly two value inputs. -/
  | malformed (label : Label) (valueInputs : Nat)
  /-- The pass asked something impossible of the graph. -/
  | misuse (cause : Misuse)
deriving DecidableEq

/-- How a failed pass is reported. -/
def Error.message : Error → String
  | .malformed label n =>
    "malformed match: " ++ label.text ++ " has " ++ toString n ++ " value inputs, want 2"
  | .misuse cause => cause.message

end SeaOfNodes.Pass
