/-
  SeaOfNodes.Role

  The part an edge plays for the node it points to: a name and, for some
  roles, a number.  Control roles carry control flow, value roles carry a
  value, and schedule roles are written by the scheduler alone.

  A role is written as its name, or as `name(n)` when it is numbered.  The
  grammar that `Role.parse` accepts leaves out the schedule roles.
-/
import SeaOfNodes.Text.Quoted

namespace SeaOfNodes

namespace Role

/-- The names of roles.  A name outside the list is kept as it is; it carries
    neither control nor a value. -/
inductive Name where
  | control
  | ifTrue
  | ifFalse
  | value
  | receiver
  | arg
  | condition
  | globalSchedule
  | localSchedule
  | other (text : String)
deriving DecidableEq

namespace Name

/-- A name as it is written. -/
def text : Name → String
  | control => "control"
  | ifTrue => "true"
  | ifFalse => "false"
  | value => "value"
  | receiver => "receiver"
  | arg => "arg"
  | condition => "condition"
  | globalSchedule => "global_schedule"
  | localSchedule => "local_schedule"
  | other text => text

/-- The names with a meaning. -/
def known : List Name :=
  [control, ifTrue, ifFalse, value, receiver, arg, condition, globalSchedule, localSchedule]

/-- The name with a given text. -/
def ofText (text : String) : Name :=
  (known.find? fun name => name.text == text).getD (other text)

/-- Whether edges with this name carry control flow. -/
def isControl : Name → Bool
  | control | ifTrue | ifFalse => true
  | _ => false

/-- Whether edges with this name carry a value. -/
def isValue : Name → Bool
  | value | receiver | arg | condition => true
  | _ => false

/-- Whether edges with this name are written by the scheduler. -/
def isSchedule : Name → Bool
  | globalSchedule | localSchedule => true
  | _ => false

end Name

end Role

/-- The part an edge plays for its target. -/
structure Role where
  name : Role.Name
  /-- The number of a numbered role.  It is never -1, which stands for its
      absence; see `Role.numbered`. -/
  index : Option Int64
deriving DecidableEq

namespace Role

/-- A role without a number. -/
def plain (name : Name) : Role := ⟨name, none⟩

/-- A role with a number, where -1 means none. -/
def numbered (name : Name) (n : Int64) : Role :=
  ⟨name, if n = -1 then none else some n⟩

/-- The number of a role, with -1 for a role that has none. -/
def slot (role : Role) : Int64 := role.index.getD (-1)

/-- The plain control-flow role. -/
def control : Role := plain .control

/-- The `n`-th control input of a merge. -/
def controlN (n : Int64) : Role := numbered .control n

/-- From a branch to what runs when its condition holds. -/
def ifTrue : Role := plain .ifTrue

/-- From a branch to what runs when its condition fails. -/
def ifFalse : Role := plain .ifFalse

/-- The plain value role. -/
def value : Role := plain .value

/-- The `n`-th operand of a phi or a binary operation. -/
def valueN (n : Int64) : Role := numbered .value n

/-- The receiver of a send. -/
def receiver : Role := plain .receiver

/-- The `n`-th argument of a send. -/
def arg (n : Int64) : Role := numbered .arg n

/-- The condition of a branch. -/
def condition : Role := plain .condition

/-- From a floating node to the node it is anchored to. -/
def globalSchedule : Role := plain .globalSchedule

/-- From a node to the one that follows it in its block. -/
def localSchedule : Role := plain .localSchedule

/-- Whether the role carries control flow. -/
def isControl (role : Role) : Bool := role.name.isControl

/-- Whether the role carries a value. -/
def isValue (role : Role) : Bool := role.name.isValue

/-- Whether the role is written by the scheduler. -/
def isSchedule (role : Role) : Bool := role.name.isSchedule

/-- Whether the role has a number. -/
def isNumbered (role : Role) : Bool := role.index.isSome

/-- A role as it is written: its name, and its number in parentheses. -/
def text (role : Role) : String :=
  match role.index with
  | none => role.name.text
  | some n => role.name.text ++ "(" ++ toString n.toInt ++ ")"

/-! ## Reading roles -/

/-- Why a text is not a role. -/
inductive ParseError where
  /-- The text has not the shape `name` or `name(digits)`. -/
  | shape (raw : String)
  /-- The name is not one that a graph may use. -/
  | name (text : String)
  /-- The number does not fit 64 bits. -/
  | number (raw : String) (digits : String)
deriving DecidableEq

/-- How a text that is not a role is reported. -/
def ParseError.message : ParseError → String
  | .shape raw => "invalid role format: " ++ Text.quote raw
  | .name text => "unknown role name: " ++ Text.quote text
  | .number raw digits =>
    "invalid role index in " ++ Text.quote raw ++ ": strconv.Atoi: parsing " ++ Text.quote digits
      ++ ": value out of range"

/-- Characters of a role name. -/
def isNameChar (c : Char) : Bool := ('a' ≤ c && c ≤ 'z') || c == '_'

/-- A decimal digit. -/
def isDigit (c : Char) : Bool := '0' ≤ c && c ≤ '9'

/-- The number written by decimal digits, most significant first. -/
def readDigits (digits : List Char) : Nat :=
  digits.foldl (fun n c => n * 10 + (c.toNat - '0'.toNat)) 0

/-- Split a text into its name and, if parentheses follow, the digits between
    them.  Nothing may stand before or after. -/
def split? (raw : List Char) : Option (List Char × Option (List Char)) :=
  match raw.span isNameChar with
  | ([], _) => none
  | (name, []) => some (name, none)
  | (name, '(' :: rest) =>
    match rest.span isDigit with
    | ([], _) => none
    | (digits, [')']) => some (name, some digits)
    | _ => none
  | _ => none

/-- Read a role.  The shape is checked first, then the name, then the size of
    the number; schedule roles are no names a text may use. -/
def parse (raw : String) : Except ParseError Role :=
  match split? raw.toList with
  | none => .error (.shape raw)
  | some (nameChars, digits?) =>
    let name := Name.ofText (String.ofList nameChars)
    if !name.isControl && !name.isValue then .error (.name (String.ofList nameChars))
    else
      match digits? with
      | none => .ok (plain name)
      | some digits =>
        let n := readDigits digits
        if n < 0x8000000000000000 then .ok ⟨name, some (Int64.ofNat n)⟩
        else .error (.number raw (String.ofList digits))

end Role

end SeaOfNodes
