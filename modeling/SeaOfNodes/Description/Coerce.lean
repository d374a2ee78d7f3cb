/-
  SeaOfNodes.Description.Coerce

  Turning a value into one of another type.  A number or a truth value turns into
  its text, and the text of one back into it; a container turns into another of
  the same shape by its elements.  A null and an unknown keep to their types.
-/
import SeaOfNodes.Description.Value

namespace SeaOfNodes.Description

open Number (BigFloat)

/-- Whether values of a plain type may be turned into values of another. -/
def ValueType.convertible (source target : ValueType) : Bool :=
  source == target || source == .dynamic || target == .dynamic ||
    match source, target with
    | .number, .string => true
    | .bool, .string => true
    | .string, .number => true
    | .string, .bool => true
    | _, _ => false

/-- The truth value that a text stands for. -/
def truthOfText? (s : String) : Option Bool :=
  if s = "true" ∨ s = "1" then some true
  else if s = "false" ∨ s = "0" then some false
  else none

namespace Value

/-- The text of a truth value. -/
def truthText (b : Bool) : String := if b then "true" else "false"

/-- A text of a value that is not null and not unknown. -/
def asText? : Value → Option String
  | .string s => some s
  | .number n => some n.text
  | .bool b => some (truthText b)
  | _ => none

/-- A number of a value that is not null and not unknown. -/
def asNumber? : Value → Option BigFloat
  | .number n => some n
  | .string s => BigFloat.parse? s
  | _ => none

/-- A truth value of a value that is not null and not unknown. -/
def asBool? : Value → Option Bool
  | .bool b => some b
  | .string s => truthOfText? s
  | _ => none

/-- The elements of a list or a tuple. -/
def items? : Value → Option (List Value)
  | .list _ items => some items
  | .set _ items => some items
  | .tuple items => some items
  | _ => none

/-- The named elements of a map or an object. -/
def entries? : Value → Option (List (String × Value))
  | .map _ entries => some entries
  | .object attributes => some attributes
  | _ => none

mutual

/-- A value of a type, for a value that can be turned into one. -/
def convertTo? (target : ValueType) (v : Value) : Option Value :=
  match v with
  | .null type => if type.convertible target then some (.null target) else none
  | .unknown type => if type.convertible target then some (.unknown target) else none
  | v =>
    match target with
    | .dynamic => some v
    | .number => v.asNumber?.map .number
    | .string => v.asText?.map .string
    | .bool => v.asBool?.map .bool
    | .list element => do return .list element (← (← v.items?).mapM (convertTo? element))
    | .set element => do return .set element (← (← v.items?).mapM (convertTo? element))
    | .map element => do
      return .map element (← (← v.entries?).mapM fun (key, e) =>
        (convertTo? element e).map (key, ·))
    | .tuple elements => do return .tuple (← convertItems? elements (← v.items?))
    | .object attributes => do return .object (← convertEntries? attributes (← v.entries?))

/-- Values of the types of a tuple, one for each. -/
def convertItems? : List ValueType → List Value → Option (List Value)
  | [], [] => some []
  | target :: targets, v :: rest => do
    return (← convertTo? target v) :: (← convertItems? targets rest)
  | _, _ => none

/-- Values of the types of an object, each under its name. -/
def convertEntries? : List (String × ValueType) → List (String × Value) →
    Option (List (String × Value))
  | [], _ => some []
  | (key, target) :: targets, entries => do
    let v ← entries.lookup key
    return (key, ← convertTo? target v) :: (← convertEntries? targets entries)

end

end Value

end SeaOfNodes.Description
