/-
  SeaOfNodes.Props

  The properties of a node: a finite map from names to literals.  Setting a
  property keeps the place of a name that is there already and appends a new
  one, so a map is determined by what `get?` answers and the order in which its
  names came.
-/
import SeaOfNodes.Literal

namespace SeaOfNodes

/-- Named literals. -/
structure Props where
  entries : List (String × Literal)
deriving DecidableEq

namespace Props

/-- No properties. -/
def empty : Props := ⟨[]⟩

/-- The literal of a name. -/
def get? (props : Props) (key : String) : Option Literal := props.entries.lookup key

/-- Whether a name has a literal. -/
def has (props : Props) (key : String) : Bool := (props.get? key).isSome

/-- The literal of a name, if it is a signed integer. -/
def int? (props : Props) (key : String) : Option Int64 := (props.get? key).bind Literal.int?

/-- The literal of a name, if it is a text. -/
def str? (props : Props) (key : String) : Option String := (props.get? key).bind Literal.str?

/-- Give a name a literal in a list of entries. -/
def setEntry (key : String) (value : Literal) : List (String × Literal) → List (String × Literal)
  | [] => [(key, value)]
  | (k, v) :: rest => if k = key then (k, value) :: rest else (k, v) :: setEntry key value rest

/-- Give a name a literal. -/
def set (props : Props) (key : String) (value : Literal) : Props :=
  ⟨setEntry key value props.entries⟩

/-- The map of a list of entries, a later one counting over an earlier one. -/
def ofList (entries : List (String × Literal)) : Props :=
  entries.foldl (fun props entry => props.set entry.1 entry.2) empty

/-! ## Names with a meaning -/

/-- Position of a fixed node in the partial order. -/
def sequence : String := "sequence"

/-- Register that holds the value of a node. -/
def register : String := "register"

/-- The kind a kind test asks for. -/
def kind : String := "kind"

/-- Line of the source that a node comes from. -/
def line : String := "line"

/-- Number of an argument. -/
def number : String := "n"

/-- Value of a constant. -/
def value : String := "value"

/-- Name of the method a send calls. -/
def selector : String := "name"

/-- How many arguments a send has. -/
def argumentCount : String := "argc"

/-! ## Laws -/

theorem lookup_setEntry_self (key : String) (value : Literal) (entries : List (String × Literal)) :
    (setEntry key value entries).lookup key = some value := by
  induction entries with
  | nil => simp [setEntry]
  | cons entry rest ih =>
      obtain ⟨k, v⟩ := entry
      by_cases h : k = key
      · simp [setEntry, h]
      · have h' : (key == k) = false := by simpa using Ne.symm h
        simp [setEntry, h, List.lookup_cons, h', ih]

theorem lookup_setEntry_ne {key other : String} (h : other ≠ key) (value : Literal)
    (entries : List (String × Literal)) :
    (setEntry key value entries).lookup other = entries.lookup other := by
  have h' : (other == key) = false := by simpa using h
  induction entries with
  | nil => simp [setEntry, List.lookup_cons, h']
  | cons entry rest ih =>
      obtain ⟨k, v⟩ := entry
      by_cases hk : k = key
      · subst hk
        simp [setEntry, List.lookup_cons, h']
      · simp [setEntry, hk, List.lookup_cons, ih]

/-- A name has the literal it was given last. -/
@[simp] theorem get?_set_self (props : Props) (key : String) (value : Literal) :
    (props.set key value).get? key = some value :=
  lookup_setEntry_self key value props.entries

/-- Setting one name leaves the others alone. -/
@[simp] theorem get?_set_ne {key other : String} (h : other ≠ key) (props : Props)
    (value : Literal) : (props.set key value).get? other = props.get? other :=
  lookup_setEntry_ne h value props.entries

/-- A name without a literal has no integer. -/
theorem int?_eq_none {props : Props} {key : String} (h : props.has key = false) : props.int? key = none := by
  have hget : props.get? key = none := by simpa [has] using h
  rw [int?, hget, Option.bind_none]

end Props

end SeaOfNodes
