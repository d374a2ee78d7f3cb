/-
  SeaOfNodes.CommandLine.Parse

  From arguments to a configuration.  Flags stand in front, with one or two
  dashes and the value behind an equals sign or in the next argument; they end at
  the first argument that is none, or behind a `--`.
-/
import SeaOfNodes.CommandLine.Flag
import SeaOfNodes.Program.Config
import SeaOfNodes.Text.Lower

namespace SeaOfNodes.CommandLine

/-! ## Flags -/

/-- What is wrong with a flag. -/
inductive FlagError where
  | malformed (argument : String)
  | undefined (name : String)
  | noValue (name : String)
  | badValue (value : String) (flag : Flag) (fault : Number.IntegerFault)
deriving DecidableEq

/-- How a wrong flag is reported. -/
def FlagError.message : FlagError → String
  | .malformed argument => "bad flag syntax: " ++ argument
  | .undefined name => "flag provided but not defined: -" ++ name
  | .noValue name => "flag needs an argument: -" ++ name
  | .badValue value flag fault =>
    "invalid value " ++ Text.quote value ++ " for flag -" ++ flag.name ++ ": " ++
      match fault with
      | .malformed => "parse error"
      | .outOfRange => "value out of range"

/-- Why no more arguments are read. -/
inductive Stop where
  | help
  | wrong (cause : FlagError)
deriving DecidableEq

/-- What an argument is. -/
inductive Argument where
  /-- Not a flag. -/
  | plain
  /-- The end of the flags. -/
  | finish
  | malformed
  | flag (name : String) (value? : Option String)
deriving DecidableEq

/-- The name of a flag and the value behind an equals sign. -/
def splitFlag (text : List Char) : Argument :=
  match text.span (· ≠ '=') with
  | ([], _) => .malformed
  | (name, []) => .flag (String.ofList name) none
  | (name, _ :: value) => .flag (String.ofList name) (some (String.ofList value))

/-- Read an argument. -/
def Argument.ofText (text : String) : Argument :=
  match text.toList with
  | ['-', '-'] => .finish
  | '-' :: '-' :: '-' :: _ => .malformed
  | '-' :: '-' :: rest => splitFlag rest
  | ['-'] => .plain
  | '-' :: rest => splitFlag rest
  | _ => .plain

/-- Give a flag a value. -/
def assign (flag : Flag) (value : String) (values : Flags) : Except Stop Flags :=
  (flag.set value values).mapError fun fault => .wrong (.badValue value flag fault)

/-- Read flags; the answer is their values and the arguments behind them. -/
def readFlags (values : Flags) : List String → Except Stop (Flags × List String)
  | [] => .ok (values, [])
  | text :: rest =>
    match Argument.ofText text with
    | .plain => .ok (values, text :: rest)
    | .finish => .ok (values, rest)
    | .malformed => .error (.wrong (.malformed text))
    | .flag name value? =>
      match Flag.ofName? name with
      | none =>
        if name = "help" ∨ name = "h" then .error .help else .error (.wrong (.undefined name))
      | some flag =>
        match value?, rest with
        | some value, rest => do readFlags (← assign flag value values) rest
        | none, value :: rest => do readFlags (← assign flag value values) rest
        | none, [] => .error (.wrong (.noValue name))

/-! ## Configurations -/

/-- What is wrong with a command line. -/
inductive Error where
  | flag (cause : FlagError)
  | logFormat
  | logLevel
  | config (cause : Config.Invalid)
deriving DecidableEq

/-- How a wrong command line is reported. -/
def Error.message : Error → String
  | .flag cause => cause.message
  | .logFormat => "invalid log-format: must be 'text' or 'json'"
  | .logLevel => "invalid log-level: must be 'debug', 'info', 'warn', or 'error'"
  | .config cause => cause.message

/-- The exit code for a wrong command line. -/
def Error.code : Nat := 2

/-- What a command line asks for. -/
inductive Request where
  /-- Show the help text and do nothing. -/
  | help
  | run (config : Config)
deriving DecidableEq

/-- The path of the graphs: of the long flag, the short one or the first argument
    behind the flags, whichever is there first. -/
def graphPath (values : Flags) (rest : List String) : String :=
  if values.graph ≠ "" then values.graph
  else if values.g ≠ "" then values.g
  else rest.head?.getD ""

/-- The configuration that flags ask for. -/
def configOf (values : Flags) (path : String) : Except Error Config := do
  let logFormat := Text.lower values.logFormat
  if logFormat ∉ ["text", "json"] then throw .logFormat
  let logLevel := Text.lower values.logLevel
  if logLevel ∉ ["debug", "info", "warn", "error"] then throw .logLevel
  let config : Config :=
    { graphPath := path
      settingsPath := values.settings
      format := Text.lower values.format
      outPath := values.out
      logFormat := logFormat
      logLevel := logLevel
      workers := values.workers }
  config.check.mapError .config

/-- Read a command line. -/
def parse (arguments : List String) : Except Error Request :=
  match readFlags {} arguments with
  | .error .help => .ok .help
  | .error (.wrong cause) => .error (.flag cause)
  | .ok (values, rest) =>
    let path := graphPath values rest
    if path = "" then .ok .help else (configOf values path).map .run

/-- What is shown for a command line: the help text where it is asked for, and
    behind the message about a wrong flag. -/
def shown : Except Error Request → String
  | .ok .help => usage
  | .ok (.run _) => ""
  | .error (.flag cause) => cause.message ++ "\n" ++ usage
  | .error _ => ""

end SeaOfNodes.CommandLine
