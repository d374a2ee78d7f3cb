/-
  SeaOfNodes.Description.Unify

  The common type of several types: one that values of all of them can be turned
  into.  Texts win over numbers and truth values; tuples of one length unify
  element by element and others as lists; objects with the same names unify name
  by name and others as maps.
-/
import SeaOfNodes.Description.Value

namespace SeaOfNodes.Description

namespace ValueType

mutual

/-- How deeply a type is nested. -/
def depth : ValueType → Nat
  | .list element | .set element | .map element => depth element + 1
  | .tuple elements => depthOfAll elements + 1
  | .object attributes => depthOfAttributes attributes + 1
  | _ => 1

/-- The greatest depth of types. -/
def depthOfAll : List ValueType → Nat
  | [] => 0
  | type :: rest => max type.depth (depthOfAll rest)

/-- The greatest depth of the types of attributes. -/
def depthOfAttributes : List (String × ValueType) → Nat
  | [] => 0
  | (_, type) :: rest => max type.depth (depthOfAttributes rest)

end

/-- The element type of a list. -/
def listElement? : ValueType → Option ValueType
  | .list element => some element
  | _ => none

/-- The element type of a map. -/
def mapElement? : ValueType → Option ValueType
  | .map element => some element
  | _ => none

/-- The element types of a tuple. -/
def tupleElements? : ValueType → Option (List ValueType)
  | .tuple elements => some elements
  | _ => none

/-- The attributes of an object. -/
def objectAttributes? : ValueType → Option (List (String × ValueType))
  | .object attributes => some attributes
  | _ => none

/-- The element types of a list or a tuple. -/
def itemTypes? : ValueType → Option (List ValueType)
  | .list element => some [element]
  | .tuple elements => some elements
  | _ => none

/-- The element types of a map or an object. -/
def entryTypes? : ValueType → Option (List ValueType)
  | .map element => some [element]
  | .object attributes => some (attributes.map (·.2))
  | _ => none

/-- The common type of types that are no containers. -/
def unifyPlain (types : List ValueType) : Option ValueType :=
  let plain := types.all fun t => t == .number || t == .string || t == .bool
  match types with
  | [] => some .dynamic
  | first :: rest =>
    if rest.all (· == first) then some first
    else if plain && types.contains .string then some .string
    else none

/-- The lists made of the elements at each place; the lists have one length. -/
def columns (rows : List (List ValueType)) : List (List ValueType) :=
  (List.range ((rows.head?.map List.length).getD 0)).map fun i => rows.filterMap (·[i]?)

/-- Whether all members of a list agree in something. -/
def agree {α β : Type} [BEq β] (f : α → β) (xs : List α) : Bool :=
  match xs with
  | [] => true
  | x :: rest => rest.all fun y => f y == f x

/-- The common type of types of a depth below `fuel`.  A type that is not known
    gives way to any plain type, while next to a container it leaves the common
    type open. -/
def unifyWithin : (fuel : Nat) → List ValueType → Option ValueType
  | 0, _ => none
  | fuel + 1, types =>
    let fixed := types.filter (· != .dynamic)
    let unlessOpen := fun (unified : Option ValueType) =>
      if fixed.length < types.length then some .dynamic else unified
    if fixed.isEmpty then some .dynamic
    else if let some elements := fixed.mapM listElement? then
      unlessOpen ((unifyWithin fuel elements).map .list)
    else if let some elements := fixed.mapM mapElement? then
      unlessOpen ((unifyWithin fuel elements).map .map)
    else if let some rows := fixed.mapM tupleElements? then
      unlessOpen <|
        if agree List.length rows then ((columns rows).mapM (unifyWithin fuel)).map .tuple
        else (unifyWithin fuel rows.flatten).map .list
    else if let some rows := fixed.mapM objectAttributes? then
      unlessOpen <|
        if agree (List.map Prod.fst) rows then do
          let names := (rows.head?.getD []).map (·.1)
          let types ← (columns (rows.map (List.map Prod.snd))).mapM (unifyWithin fuel)
          return .object (names.zip types)
        else (unifyWithin fuel (rows.flatten.map (·.2))).map .map
    else if let some rows := fixed.mapM itemTypes? then
      unlessOpen ((unifyWithin fuel rows.flatten).map .list)
    else if let some rows := fixed.mapM entryTypes? then
      unlessOpen ((unifyWithin fuel rows.flatten).map .map)
    else unifyPlain fixed

/-- The common type of types, if there is one. -/
def unify? (types : List ValueType) : Option ValueType :=
  unifyWithin (depthOfAll types + 1) types

end ValueType

end SeaOfNodes.Description
