/-
  SeaOfNodes.Literal

  The constants that nodes carry as properties and instructions as immediates.
-/
import SeaOfNodes.Number.Shortest

namespace SeaOfNodes

/-- A constant. -/
inductive Literal where
  | int (value : Int64)
  | uint (value : UInt64)
  | float (value : Number.Double)
  | str (value : String)
  | bool (value : Bool)
  | bytes (value : List UInt8)
  /-- A value of the wire format that has a number and no other meaning. -/
  | simple (code : UInt8)
  | null
deriving DecidableEq

namespace Literal

/-- The integer of a literal that holds a signed one. -/
def int? : Literal → Option Int64
  | .int value => some value
  | _ => none

/-- The text of a literal that holds one. -/
def str? : Literal → Option String
  | .str value => some value
  | _ => none

/-- A literal as a listing shows it. -/
def text : Literal → String
  | .int value => toString value.toInt
  | .uint value => toString value.toNat
  | .float value => value.text
  | .str value => value
  | .bool value => if value then "true" else "false"
  | .bytes value => "[" ++ " ".intercalate (value.map fun b => toString b.toNat) ++ "]"
  | .simple code => toString code.toNat
  | .null => "<nil>"

end Literal

end SeaOfNodes
