/-
  SeaOfNodes.Document.Step

  What a value has to offer to the steps of an expression: its elements by index,
  its attributes by name, and its elements in order for a loop or a splat.
-/
import SeaOfNodes.Description.Coerce

namespace SeaOfNodes.Document

open Description (Value ValueType)

/-- A value, and whether the expression it comes from is wrong.  A wrong
    expression has a value too, as far as its type is known. -/
structure Evaluation where
  value : Value
  failed : Bool

namespace Evaluation

/-- A value of nothing wrong. -/
def done (value : Value) : Evaluation := ⟨value, false⟩

/-- A fault that leaves a type. -/
def faulty (type : ValueType) : Evaluation := ⟨.unknown type, true⟩

/-- A fault that leaves nothing. -/
def fault : Evaluation := faulty .dynamic

/-- Mark a value as wrong, too, if something before it was. -/
def after (failed : Bool) (e : Evaluation) : Evaluation := ⟨e.value, failed || e.failed⟩

end Evaluation

/-- Whether a value is unknown. -/
def isUnknown : Value → Bool
  | .unknown _ => true
  | _ => false

/-- The value at a position of a list or a tuple; `type` is what is known of a
    value there. -/
def elementAt (items : List Value) (type : ValueType) (key : Value) : Evaluation :=
  match key.convertTo? .number with
  | some (.number n) =>
    match n.toWord? with
    | some i =>
      if n.isWhole && 0 ≤ i then
        match items[i.toInt.toNat]? with
        | some v => .done v
        | none => .fault
      else .fault
    | none => .fault
  | some _ => .done (.unknown type)
  | none => .fault

/-- The value under a name of a map or an object. -/
def elementNamed (entries : List (String × Value)) (type : ValueType) (key : Value) :
    Evaluation :=
  match key.convertTo? .string with
  | some (.string name) =>
    match entries.lookup name with
    | some v => .done v
    | none => .fault
  | some _ => .done (.unknown type)
  | none => .fault

/-- What an index leads to. -/
def indexValue (collection key : Value) : Evaluation :=
  if collection.isNull || key.isNull then .fault
  else if collection.type == .dynamic || key.type == .dynamic then .done (.unknown .dynamic)
  else
    match collection with
    | .list type items => elementAt items type key
    | .tuple items => elementAt items .dynamic key
    | .map type entries => elementNamed entries type key
    | .object attributes => elementNamed attributes .dynamic key
    | .unknown (.list type) => .done (.unknown type)
    | .unknown (.map type) => .done (.unknown type)
    | .unknown (.tuple _) => .done (.unknown .dynamic)
    | .unknown (.object _) => .done (.unknown .dynamic)
    | _ => .fault

/-- What an attribute leads to. -/
def attributeValue (source : Value) (name : String) : Evaluation :=
  let name := Text.normalize name
  match source with
  | .object attributes => elementNamed attributes .dynamic (.string name)
  | .map type entries => elementNamed entries type (.string name)
  | .unknown .dynamic => .done (.unknown .dynamic)
  | .unknown (.map type) => .done (.unknown type)
  | .unknown (.object attributes) =>
    match attributes.lookup name with
    | some type => .done (.unknown type)
    | none => .fault
  | _ => .fault

/-- The keys and values that a loop runs through: positions of a list or a tuple,
    names of a map or an object. -/
def iterate? (v : Value) : Option (List (Value × Value)) :=
  match v.items?, v.entries? with
  | some items, _ => some (items.zipIdx.map fun (v, i) => (Value.ofInt i, v))
  | none, some entries => some (entries.map fun (key, v) => (.string key, v))
  | none, none => none

/-- An object with entries put in one after the other: a later one replaces an
    earlier one of the same name, and the names come in order. -/
def insertEntry (entries : List (String × Value)) (name : String) (v : Value) :
    List (String × Value) :=
  match entries with
  | [] => [(name, v)]
  | (key, w) :: rest =>
    if key = name then (name, v) :: rest
    else if name < key then (name, v) :: (key, w) :: rest
    else (key, w) :: insertEntry rest name v

end SeaOfNodes.Document
