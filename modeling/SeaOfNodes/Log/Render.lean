/-
  SeaOfNodes.Log.Render

  Logs as text.  An event is one line: either `key=value` pairs, where a value is
  quoted if it could be misread, or a JSON object.
-/
import SeaOfNodes.Log.Event
import SeaOfNodes.Text.Quoted

namespace SeaOfNodes.Log

/-- The form of a log. -/
inductive Format where
  | text
  | json
deriving DecidableEq

/-- The form that a configuration asks for. -/
def Format.ofText (text : String) : Format := if text = "json" then .json else .text

/-! ## Pairs -/

/-- Whether a character makes a value misreadable. -/
def isMisleading (c : Char) : Bool :=
  if c.toNat < 0x80 then c == ' ' || c == '=' || c == '"' || c.toNat < 0x20
  else c == '\ufffd' || !Text.isPrintable c

/-- A text in a pair. -/
def bareText (s : String) : String :=
  if s.isEmpty || s.toList.any isMisleading then Text.quote s else s

/-- A value in a pair. -/
def Value.pairText : Value → String
  | .text s => bareText s
  | .number n => toString n
  | .flag b => if b then "true" else "false"
  | .texts items => bareText ("[" ++ " ".intercalate items ++ "]")

/-- An event as pairs. -/
def Event.pairLine (e : Event) : String :=
  " ".intercalate
    (("level=" ++ e.level.name) :: ("msg=" ++ bareText e.message) ::
      e.fields.map fun (key, value) => bareText key ++ "=" ++ value.pairText)

/-! ## JSON -/

/-- A character in a JSON string. -/
def jsonChar (c : Char) : List Char :=
  if c = '"' ∨ c = '\\' then ['\\', c]
  else if c = '\n' then ['\\', 'n']
  else if c = '\r' then ['\\', 'r']
  else if c = '\t' then ['\\', 't']
  else if c.toNat < 0x20 ∨ c = '\u2028' ∨ c = '\u2029' then '\\' :: 'u' :: Text.hexDigits 4 c.toNat
  else [c]

/-- A text as a JSON string. -/
def jsonString (s : String) : String :=
  String.ofList ('"' :: s.toList.flatMap jsonChar ++ ['"'])

/-- A value as JSON. -/
def Value.json : Value → String
  | .text s => jsonString s
  | .number n => toString n
  | .flag b => if b then "true" else "false"
  | .texts items => "[" ++ ",".intercalate (items.map jsonString) ++ "]"

/-- An event as a JSON object.  Fields of one name may come twice. -/
def Event.jsonLine (e : Event) : String :=
  let fields := ("level", Value.text e.level.name) :: ("msg", .text e.message) :: e.fields
  "\x7b" ++ ",".intercalate (fields.map fun (key, value) => jsonString key ++ ":" ++ value.json)
    ++ "\x7d"

/-! ## Logs -/

/-- An event as a line. -/
def Format.line (f : Format) (e : Event) : String :=
  match f with
  | .text => e.pairLine
  | .json => e.jsonLine

/-- The lines of the events that are at least as important as a level. -/
def lines (f : Format) (level : Level) (events : List Event) : List String :=
  (events.filter fun e => level.rank ≤ e.level.rank).map f.line

end SeaOfNodes.Log
