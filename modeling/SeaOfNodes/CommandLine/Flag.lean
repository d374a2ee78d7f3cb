/-
  SeaOfNodes.CommandLine.Flag

  The flags of the command line and their values, and the help text that names
  them all.
-/
import SeaOfNodes.Number.Integer
import SeaOfNodes.Text.Quoted

namespace SeaOfNodes.CommandLine

/-- A flag. -/
inductive Flag where
  | format
  | g
  | graph
  | logFormat
  | logLevel
  | out
  | settings
  | workers
deriving DecidableEq

/-- The values of the flags. -/
structure Flags where
  format : String := ""
  g : String := ""
  graph : String := ""
  logFormat : String := "text"
  logLevel : String := "info"
  out : String := ""
  settings : String := "seasched.toml"
  workers : Int64 := 4
deriving DecidableEq

namespace Flag

/-- All flags, by name. -/
def all : List Flag := [.format, .g, .graph, .logFormat, .logLevel, .out, .settings, .workers]

/-- The name of a flag. -/
def name : Flag → String
  | .format => "format"
  | .g => "g"
  | .graph => "graph"
  | .logFormat => "log-format"
  | .logLevel => "log-level"
  | .out => "out"
  | .settings => "settings"
  | .workers => "workers"

/-- What a flag is for. -/
def purpose : Flag → String
  | .format => "Output format, overriding the settings file. Options: 'text' or 'cbor'."
  | .g => "Path to the graph file or directory (shorthand)."
  | .graph => "Path to the graph file or directory."
  | .logFormat => "Log output format. Options: 'text' or 'json'."
  | .logLevel => "Set the logging level. Options: 'debug', 'info', 'warn', 'error'."
  | .out => "Write listings to this file instead of stdout."
  | .settings => "Path to the pipeline settings file. Defaults apply if it does not exist."
  | .workers => "Number of graphs compiled concurrently."

/-- The flag of a name. -/
def ofName? (name : String) : Option Flag := all.find? fun f => f.name == name

/-- The text that a flag has, or the number as a text. -/
def get (f : Flag) (values : Flags) : String :=
  match f with
  | .format => values.format
  | .g => values.g
  | .graph => values.graph
  | .logFormat => values.logFormat
  | .logLevel => values.logLevel
  | .out => values.out
  | .settings => values.settings
  | .workers => toString values.workers.toInt

/-- Give a flag a value. -/
def set (f : Flag) (value : String) (values : Flags) : Except Number.IntegerFault Flags :=
  match f with
  | .format => .ok { values with format := value }
  | .g => .ok { values with g := value }
  | .graph => .ok { values with graph := value }
  | .logFormat => .ok { values with logFormat := value }
  | .logLevel => .ok { values with logLevel := value }
  | .out => .ok { values with out := value }
  | .settings => .ok { values with settings := value }
  | .workers => (Number.readInteger value).map fun n => { values with workers := n }

/-- Whether the value of a flag is a number. -/
def isNumeric (f : Flag) : Bool := f = .workers

/-- What the help text says about the value that a flag has when none is given. -/
def defaultText (f : Flag) : String :=
  let value := f.get {}
  if value = "" then ""
  else " (default " ++ (if f.isNumeric then value else Text.quote value) ++ ")"

/-- The lines of the help text about a flag. -/
def help (f : Flag) : String :=
  "  -" ++ f.name ++ (if f.isNumeric then " int" else " string") ++ "\n    \t" ++ f.purpose
    ++ f.defaultText ++ "\n"

end Flag

/-- What the help text says before the flags. -/
def synopsis : String :=
  "\nseasched - schedules sea-of-nodes graphs into basic blocks.\n\n" ++
  "Usage:\n  seasched [options] [GRAPH_PATH]\n\n" ++
  "Arguments:\n  GRAPH_PATH\n" ++
  "    Path to a single .hcl file or a directory containing .hcl files.\n\n" ++
  "Options:\n"

/-- The help text. -/
def usage : String := synopsis ++ String.join (Flag.all.map Flag.help)

end SeaOfNodes.CommandLine
