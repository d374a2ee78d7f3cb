/-
  SeaOfNodes.Listing.Error

  Why a graph cannot be turned into a listing.
-/
import SeaOfNodes.Graph.Basic

namespace SeaOfNodes.Listing

/-- A node that the chains do not cover exactly once. -/
inductive Unscheduled where
  | endless (first : Label)
  | severalSuccessors (label : Label) (count : Nat)
  | shared (label first second : Label)
  | unreached (label : Label)
deriving DecidableEq

/-- A phi operand without its predecessor. -/
inductive BadPhi where
  | noControlEdge (first merge : Label)
  | noMerge (label : Label)
  | unknownInput (n : Int64) (merge : NodeId)
deriving DecidableEq

/-- An operand that is missing or has no register. -/
inductive BadOperand where
  | noDestination (label : Label)
  | noRegister (label : Label)
  | unnumbered (label : Label)
  | noSelector (label : Label)
  | inputCount (label : Label) (count : Nat) (role : Role)
  | outputCount (label : Label) (count : Nat) (name : Role.Name)
deriving DecidableEq

/-- Why linearization stopped. -/
inductive Error where
  | unresolvedBlock (node : NodeId)
  | unresolvedPhi (cause : BadPhi)
  | noReturn
  | fallsOffBlock (first : Label)
  | badOperand (cause : BadOperand)
  | notScheduled (cause : Unscheduled)
deriving DecidableEq

/-- How an uncovered node is reported. -/
def Unscheduled.message : Unscheduled → String
  | .endless first => "local schedule from " ++ first.text ++ " loops"
  | .severalSuccessors label count =>
    label.text ++ " has " ++ toString count ++ " local schedule successors"
  | .shared label first second =>
    label.text ++ " is in blocks starting at " ++ first.text ++ " and " ++ second.text
  | .unreached label => label.text

/-- How a phi without its predecessor is reported. -/
def BadPhi.message : BadPhi → String
  | .noControlEdge first merge =>
    "block starting at " ++ first.text ++ " reaches " ++ merge.text ++ " without a control edge"
  | .noMerge label => label.text ++ " has no merge"
  | .unknownInput n merge => "input " ++ toString n.toInt ++ " of " ++ NodeId.text merge

/-- How a bad operand is reported. -/
def BadOperand.message : BadOperand → String
  | .noDestination label => label.text ++ " has no register"
  | .noRegister label => label.text ++ " produces no register"
  | .unnumbered label => label.text ++ " has a value input without a predecessor index"
  | .noSelector label => label.text ++ " has no selector name"
  | .inputCount label count role =>
    label.text ++ " has " ++ toString count ++ " " ++ role.text ++ " inputs"
  | .outputCount label count name =>
    label.text ++ " has " ++ toString count ++ " " ++ name.text ++ " outputs"

/-- How a failed linearization is reported. -/
def Error.message : Error → String
  | .unresolvedBlock node => "unresolved block reference: " ++ NodeId.text node
  | .unresolvedPhi cause => "unresolved phi predecessor: " ++ cause.message
  | .noReturn => "no block returns"
  | .fallsOffBlock first => "block falls off its end: block starting at " ++ first.text
  | .badOperand cause => "bad operand: " ++ cause.message
  | .notScheduled cause => "node is not scheduled: " ++ cause.message

end SeaOfNodes.Listing
