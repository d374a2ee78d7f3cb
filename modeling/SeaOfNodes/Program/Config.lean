/-
  SeaOfNodes.Program.Config

  What one run of the program works on: where the graphs and the settings are,
  where the listings go and in which format, and how the run is logged.
-/
import SeaOfNodes.Text.Quoted

namespace SeaOfNodes

/-- The configuration of a run. -/
structure Config where
  graphPath : String
  settingsPath : String
  /-- A format in place of the one in the settings; empty for none. -/
  format : String
  /-- The file that listings are written to; empty for the standard output. -/
  outPath : String
  logFormat : String
  logLevel : String
  workers : Int64
deriving DecidableEq

namespace Config

/-- What is wrong with a configuration. -/
inductive Invalid where
  | noGraphPath
  | tooFewWorkers (given : Int64)
  | unknownFormat (name : String)
deriving DecidableEq

/-- How a wrong configuration is reported. -/
def Invalid.message : Invalid → String
  | .noGraphPath => "GraphPath is a required configuration field and cannot be empty"
  | .tooFewWorkers given => "Workers must be at least 1, got " ++ toString given.toInt
  | .unknownFormat name => "invalid format " ++ Text.quote name ++ ": must be 'text' or 'cbor'"

/-- Check a configuration: first the path of the graphs, then the workers, then
    the format. -/
def check (c : Config) : Except Invalid Config :=
  if c.graphPath = "" then .error .noGraphPath
  else if c.workers < 1 then .error (.tooFewWorkers c.workers)
  else if c.format = "" ∨ c.format = "text" ∨ c.format = "cbor" then .ok c
  else .error (.unknownFormat c.format)

end Config

end SeaOfNodes
