/-
  SeaOfNodes.Description.Value

  The values that graph descriptions hold: numbers, texts and truth values, the
  containers of these, and nulls and unknowns of a type.  Texts are in composed
  normal form.
-/
import SeaOfNodes.Number.BigFloat
import SeaOfNodes.Text.Normalize

namespace SeaOfNodes.Description

open Number (BigFloat)

/-- The type of a value. -/
inductive ValueType where
  | number
  | string
  | bool
  /-- The type of a null that is given no other. -/
  | dynamic
  | list (element : ValueType)
  | set (element : ValueType)
  | map (element : ValueType)
  | tuple (elements : List ValueType)
  | object (attributes : List (String × ValueType))
deriving BEq

/-- The name of a type in messages. -/
def ValueType.name : ValueType → String
  | .number => "number"
  | .string => "string"
  | .bool => "bool"
  | .dynamic => "dynamic"
  | .list element => "list of " ++ element.name
  | .set element => "set of " ++ element.name
  | .map element => "map of " ++ element.name
  | .tuple _ => "tuple"
  | .object _ => "object"

/-- A value of a graph description. -/
inductive Value where
  | number (n : BigFloat)
  | string (s : String)
  | bool (b : Bool)
  | null (type : ValueType)
  | unknown (type : ValueType)
  | list (element : ValueType) (items : List Value)
  | set (element : ValueType) (items : List Value)
  | map (element : ValueType) (entries : List (String × Value))
  | tuple (items : List Value)
  | object (attributes : List (String × Value))

namespace Value

/-- A text, normalized. -/
def ofString (s : String) : Value := .string (Text.normalize s)

/-- An integer. -/
def ofInt (n : Int) : Value := .number (BigFloat.ofInt n)

mutual

/-- The type of a value. -/
def type : Value → ValueType
  | .number _ => .number
  | .string _ => .string
  | .bool _ => .bool
  | .null type => type
  | .unknown type => type
  | .list element _ => .list element
  | .set element _ => .set element
  | .map element _ => .map element
  | .tuple items => .tuple (types items)
  | .object attributes => .object (attributeTypes attributes)

/-- The types of values. -/
def types : List Value → List ValueType
  | [] => []
  | v :: rest => v.type :: types rest

/-- The types of the attributes of an object. -/
def attributeTypes : List (String × Value) → List (String × ValueType)
  | [] => []
  | (key, v) :: rest => (key, v.type) :: attributeTypes rest

end

/-- Whether a value is null. -/
def isNull : Value → Bool
  | .null _ => true
  | _ => false

/-- A list of values, whose element type is that of the first. -/
def ofList (items : List Value) : Value :=
  .list ((items.head?.map type).getD .dynamic) items

/-- A set of values. -/
def ofSet (items : List Value) : Value :=
  .set ((items.head?.map type).getD .dynamic) items

/-- A map of values. -/
def ofMap (entries : List (String × Value)) : Value :=
  .map ((entries.head?.map fun e => e.2.type).getD .dynamic) entries

end Value

end SeaOfNodes.Description
