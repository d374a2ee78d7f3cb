/-
  SeaOfNodes.Description.Convert

  From the values of descriptions to the literals of graphs.  A whole number
  becomes an integer of 64 bits, another number the nearest double, and a text
  or a truth value itself.  Nothing else is a literal.
-/
import SeaOfNodes.Description.Value
import SeaOfNodes.Literal

namespace SeaOfNodes.Description

/-- Why a value is no literal. -/
inductive ConversionError where
  | nullOrUnknown
  | outOfRange
  | unsupported (type : String)
deriving DecidableEq

/-- How a value that is no literal is reported. -/
def ConversionError.message : ConversionError → String
  | .nullOrUnknown => "property value must be known and not null"
  | .outOfRange =>
    "value must be a whole number, between -9223372036854775808 and 9223372036854775807"
  | .unsupported type => "unsupported property type " ++ type

/-- The literal of a number. -/
def numberLiteral (n : Number.BigFloat) : Except ConversionError Literal :=
  if n.isWhole then
    match n.toWord? with
    | some word => .ok (.int word)
    | none => .error .outOfRange
  else .ok (.float n.toDouble)

/-- The literal of a value. -/
def Value.toLiteral (v : Value) : Except ConversionError Literal :=
  match v with
  | .null _ | .unknown _ => .error .nullOrUnknown
  | .number n => numberLiteral n
  | .string s => .ok (.str s)
  | .bool b => .ok (.bool b)
  | other => .error (.unsupported other.type.name)

end SeaOfNodes.Description
