/-
  SeaOfNodes.Settings.Basic

  Which passes run before scheduling, how often, and in which format listings
  are written.
-/
import SeaOfNodes.Pass.Registry

namespace SeaOfNodes

/-- The settings of a compilation. -/
structure Settings where
  passes : List String
  fixpoint : Bool
  maxIterations : Int64
  format : String
deriving DecidableEq

namespace Settings

/-- The settings that hold when nothing else is said. -/
def standard : Settings :=
  ⟨["dead_code", "no_choice_phis", "tagging_lowering"], false, 8, "text"⟩

/-- What is wrong with settings. -/
inductive Invalid where
  | unknownPass (cause : Pass.Unknown)
  | tooFewIterations (given : Int64)
  | unknownFormat (name : String)
deriving DecidableEq

/-- How wrong settings are reported. -/
def Invalid.message : Invalid → String
  | .unknownPass cause => cause.message
  | .tooFewIterations given => "max_iterations must be at least 1, got " ++ toString given.toInt
  | .unknownFormat name =>
    "unknown output format " ++ Text.quote name ++ ": must be 'text' or 'cbor'"

/-- Check settings: first the passes, then the number of rounds, then the
    format. -/
def validate (s : Settings) (registry : Pass.Registry) : Except Invalid Unit :=
  match s.passes.find? fun name => !registry.has name with
  | some name => .error (.unknownPass ⟨name, registry.names⟩)
  | none =>
    if s.maxIterations < 1 then .error (.tooFewIterations s.maxIterations)
    else if s.format = "text" ∨ s.format = "cbor" then .ok ()
    else .error (.unknownFormat s.format)

end Settings

end SeaOfNodes
