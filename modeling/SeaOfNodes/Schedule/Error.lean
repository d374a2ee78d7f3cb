/-
  SeaOfNodes.Schedule.Error

  Why a graph cannot be scheduled.  One constructor for each kind of violation,
  with what was found.
-/
import SeaOfNodes.Graph.Basic

namespace SeaOfNodes.Schedule

/-- A node without the number it needs. -/
inductive Unsequenced where
  /-- A fixed node that control never reaches. -/
  | noPredecessor (label : Label)
  /-- A node that was not numbered. -/
  | noSequence (label : Label)
deriving DecidableEq

/-- A floating node that cannot be placed. -/
inductive Stuck where
  | noConsumers (label : Label)
  | noAnchor (label : Label)
  | neverReady (count : Nat) (first : Label)
deriving DecidableEq

/-- A chain of anchors that does not lead to a fixed node. -/
inductive BadAnchor where
  | several (label : Label) (count : Nat)
  | endless (origin : Label)
deriving DecidableEq

/-- A basic block whose nodes have no single order. -/
inductive BadBlock where
  | shared (member first second : Label)
  | twoEnds (first terminator other : Label)
  | dependentFirst (first : Label)
  | noReadyNode (left : Nat) (first : Label)
deriving DecidableEq

/-- Why scheduling stopped. -/
inductive Error where
  | noStart (found : Nat)
  | alreadyScheduled (edge : Edge)
  | cyclicControl (count : Nat) (first : Label)
  | missingSequence (cause : Unsequenced)
  | stuck (cause : Stuck)
  | missingAnchor (cause : BadAnchor)
  | missingSchedule (label : Label)
  | blockOrder (cause : BadBlock)
  | misuse (cause : Misuse)
deriving DecidableEq

/-- How a missing number is reported. -/
def Unsequenced.message : Unsequenced → String
  | .noPredecessor label => "fixed node " ++ label.text ++ " has no control predecessor"
  | .noSequence label => label.text

/-- How a stuck node is reported. -/
def Stuck.message : Stuck → String
  | .noConsumers label => label.text ++ " has no consumers"
  | .noAnchor label => "no anchor for " ++ label.text
  | .neverReady count first =>
    toString count ++ " floating nodes never became ready, first " ++ first.text

/-- How a bad chain of anchors is reported. -/
def BadAnchor.message : BadAnchor → String
  | .several label count => label.text ++ " has " ++ toString count ++ " global schedule edges"
  | .endless origin => "anchor chain from " ++ origin.text ++ " does not end"

/-- How a block without an order is reported. -/
def BadBlock.message : BadBlock → String
  | .shared member first second =>
    member.text ++ " belongs to blocks starting at " ++ first.text ++ " and " ++ second.text
  | .twoEnds first terminator other =>
    "block starting at " ++ first.text ++ " ends at both " ++ terminator.text ++ " and " ++ other.text
  | .dependentFirst first => first.text ++ " begins its block but depends on nodes inside it"
  | .noReadyNode left first =>
    "no ready node among " ++ toString left ++ " left in block starting at " ++ first.text

/-- How a failed scheduling is reported. -/
def Error.message : Error → String
  | .noStart found => "graph must have exactly one start node: found " ++ toString found
  | .alreadyScheduled edge => "graph is already scheduled: " ++ edge.text
  | .cyclicControl count first =>
    "control flow is cyclic: " ++ toString count ++ " fixed nodes never became ready, first "
      ++ first.text
  | .missingSequence cause => "missing sequence number: " ++ cause.message
  | .stuck cause => "stuck: " ++ cause.message
  | .missingAnchor cause => "missing anchor: " ++ cause.message
  | .missingSchedule label => "missing schedule edge: " ++ label.text ++ " is not anchored"
  | .blockOrder cause => "cannot order basic block: " ++ cause.message
  | .misuse cause => cause.message

end SeaOfNodes.Schedule
