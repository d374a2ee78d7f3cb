/-
  SeaOfNodes.Program.Run

  The program as a function of its arguments and the files around it.
-/
import SeaOfNodes.CommandLine.Parse
import SeaOfNodes.Log.Render
import SeaOfNodes.Program.Session

namespace SeaOfNodes.Program

open Log (Event)

/-- Why the program fails. -/
inductive Error where
  | usage (cause : CommandLine.Error)
  | startup (cause : StartError)
  | run (cause : RunError)

/-- How a failure is reported. -/
def Error.message : Error → String
  | .usage cause => cause.message
  | .startup cause => "startup failed: " ++ cause.message
  | .run cause => cause.message

/-- The exit code of a failure. -/
def Error.code : Error → Nat
  | .usage _ => CommandLine.Error.code
  | _ => 1

/-- The exit code of a run. -/
def Result.exitCode (r : Result Error) : Nat := (r.error?.map Error.code).getD 0

/-- The lines of a log in the form that a configuration asks for. -/
def logLines (c : Config) (events : List Event) : List String :=
  Log.lines (.ofText c.logFormat) (.ofText c.logLevel) events

/-- Run a configuration. -/
def runConfig (disk : Files.Disk) (c : Config) : Result Error :=
  match prepare disk c with
  | ⟨events, .error cause⟩ => { events, error? := some (.startup cause) }
  | ⟨events, .ok session⟩ =>
    let r := session.run disk
    ⟨events ++ r.events, r.output, r.file?, r.error?.map .run⟩

/-- What a command line comes to, and the lines of its log. -/
def run (disk : Files.Disk) (arguments : List String) : Result Error × List String :=
  let parsed := CommandLine.parse arguments
  let output := Files.contentOf (CommandLine.shown parsed)
  match parsed with
  | .error cause => ({ events := [], output, error? := some (.usage cause) }, [])
  | .ok .help => ({ events := [], output }, [])
  | .ok (.run config) =>
    let r := runConfig disk config
    (r, logLines config r.events)

end SeaOfNodes.Program
