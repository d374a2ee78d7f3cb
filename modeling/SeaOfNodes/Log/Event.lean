/-
  SeaOfNodes.Log.Event

  Events of a run: a level, a message and named values.
-/

namespace SeaOfNodes.Log

/-- How important an event is. -/
inductive Level where
  | debug
  | info
  | warn
  | error
deriving DecidableEq

namespace Level

/-- The rank of a level. -/
def rank : Level → Nat
  | .debug => 0
  | .info => 1
  | .warn => 2
  | .error => 3

/-- The name of a level in a log. -/
def name : Level → String
  | .debug => "DEBUG"
  | .info => "INFO"
  | .warn => "WARN"
  | .error => "ERROR"

/-- The level that a configuration asks for. -/
def ofText (text : String) : Level :=
  if text = "debug" then .debug
  else if text = "warn" then .warn
  else if text = "error" then .error
  else .info

end Level

/-- A value of an event. -/
inductive Value where
  | text (s : String)
  | number (n : Int)
  | flag (b : Bool)
  | texts (items : List String)
deriving DecidableEq

/-- An event. -/
structure Event where
  level : Level
  message : String
  fields : List (String × Value)
deriving DecidableEq

/-- An event for a close look. -/
def debug (message : String) (fields : List (String × Value)) : Event :=
  ⟨.debug, message, fields⟩

/-- Put a field in front of those of an event. -/
def Event.within (field : String × Value) (e : Event) : Event :=
  { e with fields := field :: e.fields }

end SeaOfNodes.Log
