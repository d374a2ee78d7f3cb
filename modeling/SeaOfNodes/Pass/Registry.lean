/-
  SeaOfNodes.Pass.Registry

  The passes by name.  A registry holds passes under their names, each name at
  most once; lists of passes are looked up in it in the order given.
-/
import SeaOfNodes.Pass.DeadCode
import SeaOfNodes.Pass.NoChoice
import SeaOfNodes.Pass.Tagging

namespace SeaOfNodes

/-- The passes that may run before scheduling. -/
inductive Pass where
  | deadCode
  | noChoicePhis
  | taggingLowering
deriving DecidableEq

namespace Pass

/-- The built-in passes. -/
def builtin : List Pass := [deadCode, noChoicePhis, taggingLowering]

/-- The name of a pass. -/
def name : Pass → String
  | deadCode => "dead_code"
  | noChoicePhis => "no_choice_phis"
  | taggingLowering => "tagging_lowering"

/-- Apply a pass once. -/
def run : Pass → Graph → Except Error Change
  | deadCode, g => (DeadCode.run g).mapError .misuse
  | noChoicePhis, g => (NoChoice.run g).mapError .misuse
  | taggingLowering, g => Tagging.run g

/-- A name that is already taken. -/
structure Duplicate where
  name : String
deriving DecidableEq

/-- How a second pass under one name is reported. -/
def Duplicate.message (e : Duplicate) : String :=
  "passes: pass " ++ Text.quote e.name ++ " registered twice"

/-- A name that no pass has, with the names there are. -/
structure Unknown where
  name : String
  available : List String
deriving DecidableEq

/-- How an unknown pass is reported. -/
def Unknown.message (e : Unknown) : String :=
  "unknown pass " ++ Text.quote e.name ++ ", available: [" ++ " ".intercalate e.available ++ "]"

/-- Passes under their names. -/
structure Registry where
  passes : List Pass
deriving DecidableEq

namespace Registry

/-- The pass of a name. -/
def find? (r : Registry) (name : String) : Option Pass := r.passes.find? fun p => p.name == name

/-- Whether a name has a pass. -/
def has (r : Registry) (name : String) : Bool := (r.find? name).isSome

/-- Add a pass under its name. -/
def register (r : Registry) (p : Pass) : Except Duplicate Registry :=
  if r.has p.name then .error ⟨p.name⟩ else .ok ⟨r.passes ++ [p]⟩

/-- The registry of the built-in passes. -/
def standard : Registry := ⟨builtin⟩

/-- The names in ascending order. -/
def names (r : Registry) : List String := (r.passes.map Pass.name).mergeSort (· ≤ ·)

/-- Look up a list of names. -/
def lookup (r : Registry) (names : List String) : Except Unknown (List Pass) :=
  names.mapM fun name =>
    match r.find? name with
    | some p => .ok p
    | none => .error ⟨name, r.names⟩

end Registry

end Pass

end SeaOfNodes
