/-
  SeaOfNodes.Document.Evaluate

  The value of an expression.  A fault does not end the evaluation: the value of
  the whole is then as much as is known of it.  So the branch that a conditional
  does not choose counts only for its type, and not for its faults.
-/
import SeaOfNodes.Description.Unify
import SeaOfNodes.Document.Operation

namespace SeaOfNodes.Document

open Description (Value ValueType)

/-- What an expression can refer to. -/
structure Scope where
  /-- The variables of the loops around it, innermost first. -/
  names : List (String × Value) := []
  /-- The element that the innermost splat has reached. -/
  element : Value := .unknown .dynamic

namespace Scope

/-- The scope of the body of a loop.  The value wins if both have the same name. -/
def bind (s : Scope) (binding : Binding) (key value : Value) : Scope :=
  let keys := binding.key?.toList.map (·, key)
  { s with names := (binding.value, value) :: keys ++ s.names }

/-- The scope of the steps behind a splat. -/
def reach (s : Scope) (element : Value) : Scope := { s with element := element }

end Scope

/-! ## Texts -/

/-- The parts of a text joined.  A null is no part of a text. -/
def joinParts (parts : List Evaluation) : Evaluation :=
  let texts := parts.map fun part => part.value.convertTo? .string
  let failed := parts.any (fun part => part.failed || part.value.isNull) || texts.any (·.isNone)
  if parts.any fun part => isUnknown part.value then ⟨.unknown .string, failed⟩
  else
    let text := String.join (texts.map fun t => (t.bind Value.asText?).getD "")
    ⟨.ofString text, failed⟩

/-- The elements of a tuple as parts of a text. -/
def joinElements (elements : Evaluation) : Evaluation :=
  match elements.value with
  | .tuple items => (joinParts (items.map .done)).after elements.failed
  | _ => ⟨.unknown .string, elements.failed⟩

/-! ## Conditionals -/

/-- The type of a conditional with two branches.  A plain null takes the type of
    the other branch. -/
def branchType? (yes no : Value) : Option ValueType :=
  match yes, no with
  | .null .dynamic, no => some no.type
  | yes, .null .dynamic => some yes.type
  | yes, no =>
    if yes.type == .dynamic || no.type == .dynamic then some .dynamic
    else ValueType.unify? [yes.type, no.type]

/-- One of two branches by a condition, turned into their common type. -/
def choose (condition yes no : Evaluation) : Evaluation :=
  match branchType? yes.value no.value with
  | none => .fault
  | some type =>
    if condition.value.isNull then .faulty type
    else
      match condition.value.convertTo? .bool with
      | some (.bool b) =>
        let branch := if b then yes else no
        match branch.value.convertTo? type with
        | some v => ⟨v, condition.failed || branch.failed⟩
        | none => .faulty type
      | _ =>
        if isUnknown condition.value then ⟨.unknown type, condition.failed⟩ else .faulty type

/-! ## Objects -/

/-- What the key of an entry comes to. -/
inductive KeyOutcome where
  | name (text : String)
  | undecided
  | fault

/-- The name that a key stands for. -/
def keyOutcome (key : Evaluation) : KeyOutcome :=
  if key.failed || key.value.isNull then .fault
  else
    match key.value.convertTo? .string with
    | some (.string s) => .name s
    | some _ => .undecided
    | none => .fault

/-- An object of evaluated entries.  A later entry replaces an earlier one. -/
def buildObject (entries : List (Evaluation × Evaluation)) : Evaluation :=
  let outcomes := entries.map fun (key, value) => (keyOutcome key, value)
  let failed := outcomes.any fun (key, value) =>
    value.failed || match key with
      | .fault => true
      | _ => false
  let names := outcomes.mapM fun (key, value) =>
    match key with
    | .name text => some (text, value.value)
    | _ => none
  match names with
  | some named => ⟨.object (named.foldl (fun o (name, v) => insertEntry o name v) []), failed⟩
  | none => ⟨.unknown .dynamic, failed⟩

/-! ## Splats -/

/-- The same steps from every element.  A value that is no list stands for a list
    of itself, and such a null for an empty one. -/
def splatValue (source : Evaluation) (each : Value → Evaluation) : Evaluation :=
  if source.failed then .fault
  else
    let overItems := fun (items : List Value) (build : List Value → Value)
        (unknown : ValueType) =>
      let results := items.map each
      if results.any (·.failed) then Evaluation.faulty unknown
      else .done (build (results.map (·.value)))
    match source.value with
    | .null (.tuple _) | .null (.list _) | .null (.set _) => .fault
    | .null _ => .done (.tuple [])
    | .unknown .dynamic => .done (.unknown .dynamic)
    | .unknown _ => ⟨.unknown .dynamic, (each (.unknown .dynamic)).failed⟩
    | .tuple items =>
      let types := items.map fun v => (each (.unknown v.type)).value.type
      overItems items .tuple (.tuple types)
    | .list type items | .set type items =>
      let element := (each (.unknown type)).value.type
      overItems items
        (fun vs => .list ((vs.head?.map Value.type).getD element) vs) (.list element)
    | other => overItems [other] .tuple (.tuple [(each (.unknown other.type)).value.type])

/-! ## Loops -/

/-- Whether a loop takes an element. -/
inductive Inclusion where
  | included
  | skipped
  | undecided
  | fault

/-- What the condition of a loop says about an element. -/
def inclusion (condition : Evaluation) : Inclusion :=
  if condition.value.isNull then .fault
  else
    match condition.value.convertTo? .bool with
    | some (.bool b) => if b then .included else .skipped
    | some _ => .undecided
    | none => .fault

/-- Whether the condition of a loop is wrong whatever the elements are. -/
def rejects (condition : Evaluation) : Bool :=
  condition.failed ||
    match inclusion condition with
    | .fault => true
    | _ => false

/-- What the elements of a loop come to so far. -/
structure Harvest where
  /-- The results, last one first. -/
  results : List (String × Value) := []
  /-- Something about the results is not known. -/
  isOpen : Bool := false
  failed : Bool := false

/-- Take in one element: its condition, its key and its value.  A loop without
    keys takes `none` for it. -/
def Harvest.add (h : Harvest) (condition : Evaluation) (key? : Option Evaluation)
    (body : Evaluation) (unique : Bool) : Harvest :=
  let h := { h with failed := h.failed || condition.failed }
  match inclusion condition with
  | .skipped => h
  | .undecided => { h with isOpen := true }
  | .fault => { h with isOpen := true, failed := true }
  | .included =>
    match key? with
    | none => { h with results := ("", body.value) :: h.results, failed := h.failed || body.failed }
    | some key =>
      let failed := h.failed || key.failed
      if isUnknown key.value then { h with isOpen := true, failed := failed }
      else
        match keyOutcome ⟨key.value, false⟩ with
        | .name text =>
          let twice := unique && (h.results.lookup text).isSome
          { h with
            results := if twice then h.results else (text, body.value) :: h.results
            failed := failed || body.failed || twice }
        | _ => { h with isOpen := true, failed := true }

/-- The object of a loop that gathers the values of each key in a tuple. -/
def groupResults (results : List (String × Value)) : List (String × Value) :=
  results.foldl (fun o (name, v) =>
    let gathered := (o.lookup name).bind Value.items?
    insertEntry o name (.tuple (gathered.getD [] ++ [v]))) []

/-- Run a loop over a source: `condition`, `key?` and `body` evaluate an element
    with its key, and `build` makes a value of the results. -/
def loopValue (source : Evaluation) (condition : Value → Value → Evaluation)
    (key? : Option (Value → Value → Evaluation)) (body : Value → Value → Evaluation)
    (unique : Bool) (build : List (String × Value) → Value) : Evaluation :=
  let unknown : Value := .unknown .dynamic
  if source.value.isNull then .fault
  else if isUnknown source.value then
    let type := source.value.type
    let iterable := type == .dynamic || !(type == .number || type == .string || type == .bool)
    ⟨unknown, source.failed || !iterable⟩
  else
    match iterate? source.value with
    | none => .fault
    | some pairs =>
      if rejects (condition unknown unknown) then .fault
      else
        let harvest := pairs.foldl (fun (h : Harvest) (k, v) =>
          h.add (condition k v) (key?.map fun key => key k v) (body k v) unique) {}
        let failed := source.failed || harvest.failed
        if harvest.isOpen then ⟨unknown, failed⟩
        else ⟨build harvest.results.reverse, failed⟩

/-! ## Expressions -/

mutual

/-- The value of an expression in a scope. -/
def evaluate (e : Expr) (scope : Scope) : Evaluation :=
  match e with
  | .literal value => .done value
  | .variable name =>
    match scope.names.lookup name with
    | some value => .done value
    | none => .fault
  | .element => .done scope.element
  | .refused => .fault
  | .group inner => evaluate inner scope
  | .template parts => joinParts (evaluateAll parts scope)
  | .join elements => joinElements (evaluate elements scope)
  | .unary op operand => applyUnary op (evaluate operand scope)
  | .binary op left right => applyBinary op (evaluate left scope) (evaluate right scope)
  | .conditional condition yes no =>
    choose (evaluate condition scope) (evaluate yes scope) (evaluate no scope)
  | .tuple items =>
    let evaluated := evaluateAll items scope
    ⟨.tuple (evaluated.map (·.value)), evaluated.any (·.failed)⟩
  | .object entries => buildObject (evaluateEntries entries scope)
  | .attribute source name =>
    let source := evaluate source scope
    (attributeValue source.value name).after source.failed
  | .index source key =>
    let source := evaluate source scope
    let key := evaluate key scope
    (indexValue source.value key.value).after (source.failed || key.failed)
  | .splat source each =>
    splatValue (evaluate source scope) fun v => evaluate each (scope.reach v)
  | .forTuple binding source body condition =>
    loopValue (evaluate source scope)
      (fun k v => evaluate condition (scope.bind binding k v)) none
      (fun k v => evaluate body (scope.bind binding k v)) false
      (fun results => .tuple (results.map (·.2)))
  | .forObject binding source key body condition grouped =>
    loopValue (evaluate source scope)
      (fun k v => evaluate condition (scope.bind binding k v))
      (some fun k v => evaluate key (scope.bind binding k v))
      (fun k v => evaluate body (scope.bind binding k v)) (!grouped)
      (fun results =>
        .object (if grouped then groupResults results
          else results.foldl (fun o (name, v) => insertEntry o name v) []))

/-- The values of expressions. -/
def evaluateAll : List Expr → Scope → List Evaluation
  | [], _ => []
  | e :: rest, scope => evaluate e scope :: evaluateAll rest scope

/-- The values of the keys and values of an object. -/
def evaluateEntries : List (Expr × Expr) → Scope → List (Evaluation × Evaluation)
  | [], _ => []
  | (key, value) :: rest, scope =>
    (evaluate key scope, evaluate value scope) :: evaluateEntries rest scope

end

/-- The value of a constant expression, if nothing in it is wrong. -/
def constant? (e : Expr) : Option Value :=
  let result := evaluate e {}
  if result.failed then none else some result.value

end SeaOfNodes.Document
