/-
  SeaOfNodes.Program.Session

  A run of the program.  Graphs and settings are loaded first; then the graphs are
  compiled in the order in which they were loaded, up to the first that fails, and
  the listings are written if none does.
-/
import SeaOfNodes.Description.Build
import SeaOfNodes.Description.Load
import SeaOfNodes.Listing.Output
import SeaOfNodes.Program.Config
import SeaOfNodes.Program.Journal
import SeaOfNodes.Settings.Load

namespace SeaOfNodes.Program

open Description (GraphSpec)
open Log (Event debug)

/-! ## Loading -/

/-- Why a run cannot begin. -/
inductive StartError where
  | graphs (cause : Description.LoadError)
  | settings (cause : Settings.LoadError)
  | passes (cause : Pass.Unknown)

/-- How a run that cannot begin is reported. -/
def StartError.message : StartError → String
  | .graphs cause => "failed to load graphs: " ++ cause.message
  | .settings cause => "failed to load settings: " ++ cause.message
  | .passes cause => "failed to build pipeline: " ++ cause.message

/-- A run that is ready to begin. -/
structure Session where
  config : Config
  graphs : List GraphSpec
  compiler : Compiler
  format : String

/-- The events so far, and what came of it. -/
abbrev Logged (ε α : Type) := Outcome (List Event) ε α

/-- Load the graphs of a configuration. -/
def loadGraphs (disk : Files.Disk) (c : Config) : Logged StartError (List GraphSpec) :=
  let begun :=
    [debug "Logger configured successfully." [],
     debug "HCL loader started." [("path_count", .number 1)]]
  match Description.findFiles disk [c.graphPath] with
  | .error cause => .failed begun (.graphs cause)
  | .ok files =>
    let found := begun ++ [debug "Discovered HCL files." [("count", .number files.length)]]
    match Description.readFiles disk files with
    | .error cause => .failed found (.graphs cause)
    | .ok graphs =>
      let count := Log.Value.number graphs.length
      .done (found ++ [debug "HCL loading complete." [("graphs", count)],
        debug "Graph descriptions loaded." [("graphs", count)]]) graphs

/-- The settings of a configuration, whose own format comes first. -/
def loadSettings (disk : Files.Disk) (c : Config) : Except Settings.LoadError Settings :=
  (Settings.load disk c.settingsPath .standard).map fun s =>
    if c.format = "" then s else { s with format := c.format }

/-- Load what a configuration asks for. -/
def prepare (disk : Files.Disk) (c : Config) : Logged StartError Session :=
  (loadGraphs disk c).andThen fun events graphs =>
    match loadSettings disk c with
    | .error cause => .failed events (.settings cause)
    | .ok settings =>
      match Compiler.ofSettings settings .standard with
      | .error cause => .failed events (.passes cause)
      | .ok compiler =>
        let configured := debug "Pipeline configured."
          [("passes", .texts (compiler.passes.map Pass.name)), ("fixpoint", .flag compiler.fixpoint),
           ("format", .text settings.format)]
        .done (events ++ [configured]) ⟨c, graphs, compiler, settings.format⟩

/-! ## Compiling -/

/-- Why a graph has no listing. -/
inductive GraphError where
  | build (cause : Description.BuildError)
  | compile (cause : Compiler.Error)
deriving DecidableEq

/-- How a graph without a listing is reported. -/
def GraphError.message : GraphError → String
  | .build cause => cause.message
  | .compile cause => cause.message

/-- Compile one graph. -/
def compileGraph (c : Compiler) (spec : GraphSpec) : Logged GraphError Listing :=
  let field := ("graph", Log.Value.text spec.name)
  match Description.build spec with
  | .error cause => .failed [] (.build cause)
  | .ok g =>
    let built := debug "Graph built." [field, ("nodes", .number g.size)]
    let trace := c.trace g
    let events := (built :: traceEvents trace).map (Event.within field)
    match trace.result with
    | .error cause => .failed events (.compile cause)
    | .ok blocks => .done events ⟨spec.name, Listing.bodyOf blocks⟩

/-- Why listings cannot be written. -/
inductive WriteError where
  | create (path : String) (fault : Files.Fault)
  | format (cause : Listing.UnknownFormat)
deriving DecidableEq

/-- How listings that cannot be written are reported. -/
def WriteError.message : WriteError → String
  | .create path fault => "open " ++ path ++ ": " ++ fault.text
  | .format cause => cause.message

/-- Why a run ends without listings. -/
inductive RunError where
  | graph (name : String) (cause : GraphError)
  | write (cause : WriteError)
deriving DecidableEq

/-- How a run without listings is reported. -/
def RunError.message : RunError → String
  | .graph name cause => "graph " ++ Text.quote name ++ ": " ++ cause.message
  | .write cause => "failed to write output: " ++ cause.message

/-- Compile graphs up to the first that fails. -/
def compileAll (c : Compiler) : List GraphSpec → Logged RunError (List Listing)
  | [] => .done [] []
  | spec :: rest =>
    match compileGraph c spec with
    | ⟨events, .error cause⟩ => .failed events (.graph spec.name cause)
    | ⟨events, .ok listing⟩ =>
      let later := compileAll c rest
      ⟨events ++ later.state, later.result.map (listing :: ·)⟩

/-! ## Writing -/

/-- What a run leaves behind: its log, what it wrote to the standard output, the
    file that it wrote, and why it failed if it did. -/
structure Result (ε : Type) where
  events : List Event
  output : Files.Content := []
  file? : Option (String × Files.Content) := none
  error? : Option ε := none

/-- Where the content of listings goes.  A file is created before the format
    turns out to be unknown. -/
def writeListings (disk : Files.Disk) (s : Session) (listings : List Listing)
    (events : List Event) : Result RunError :=
  let (content, error?) :=
    match Listing.write s.format (some listings) with
    | .ok output => (output.bytes, none)
    | .error cause => ([], some (RunError.write (.format cause)))
  if s.config.outPath = "" then { events, output := content, error? }
  else
    match disk.checkCreate s.config.outPath with
    | .error fault => { events, error? := some (.write (.create s.config.outPath fault)) }
    | .ok () => { events, file? := some (s.config.outPath, content), error? }

/-- Say at the end of a run that it is through, unless it failed. -/
def Result.finish {ε : Type} (r : Result ε) (last : Event) : Result ε :=
  if r.error?.isSome then r else { r with events := r.events ++ [last] }

/-- Compile the graphs of a session and write the listings. -/
def Session.run (disk : Files.Disk) (s : Session) : Result RunError :=
  let begun := debug "App.Run method started." []
  if s.graphs.isEmpty then
    { events := [begun,
        ⟨.warn, "No graphs found, nothing to compile.", [("path", .text s.config.graphPath)]⟩] }
  else
    match compileAll s.compiler s.graphs with
    | ⟨events, .error cause⟩ => { events := begun :: events, error? := some cause }
    | ⟨events, .ok listings⟩ =>
      let compiled : Event := ⟨.info, "Graphs compiled.", [("count", .number listings.length)]⟩
      (writeListings disk s listings (begun :: events ++ [compiled])).finish
        (debug "App.Run method finished." [])

end SeaOfNodes.Program
