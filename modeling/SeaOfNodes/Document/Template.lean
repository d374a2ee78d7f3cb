/-
  SeaOfNodes.Document.Template

  Templates: text with values and directives in it.  A template that is nothing
  but one value stands for that value; any other stands for a text.
-/
import SeaOfNodes.Document.Syntax
import SeaOfNodes.Text.Space

namespace SeaOfNodes.Document

open Description (Value)

/-- A part of a template. -/
inductive Part where
  | text (content : List Char)
  | value (e : Expr)
  | ifStart (condition : Expr)
  | elseMark
  | ifEnd
  | forStart (binding : Binding) (source : Expr)
  | forEnd

/-! ## Flush heredocs -/

/-- Whether a text ends its line. -/
def endsLine (content : List Char) : Bool := content.getLast? = some '\n'

/-- The indentation that a part has at the beginning of a line; a blank line has
    none that counts. -/
def indentation? : Part → Option Nat
  | .text content =>
    let spaces := (content.takeWhile Text.isSpace).length
    if spaces = content.length ∧ endsLine content then none else some spaces
  | _ => some 0

/-- Whether the next part begins a line. -/
def beginsLineAfter : Part → Bool
  | .text content => endsLine content
  | _ => false

/-- The smallest indentation of the lines; `fresh` tells whether the first part
    begins one. -/
def leastIndentation? (fresh : Bool) : List Part → Option Nat
  | [] => none
  | part :: rest =>
    let later := leastIndentation? (beginsLineAfter part) rest
    match if fresh then indentation? part else none, later with
    | some n, some m => some (min n m)
    | some n, none => some n
    | none, later => later

/-- Take `n` characters of indentation off every line but blank ones. -/
def dedent (n : Nat) (fresh : Bool) : List Part → List Part
  | [] => []
  | part :: rest =>
    let shorter : Part :=
      match part with
      | .text content =>
        if fresh && (indentation? part).isSome then .text (content.drop n) else part
      | part => part
    shorter :: dedent n (beginsLineAfter part) rest

/-- Take the common indentation off the lines of a template. -/
def flushParts (parts : List Part) : List Part :=
  match leastIndentation? true parts with
  | some n => dedent n true parts
  | none => parts

/-! ## Directives -/

/-- The text of a part as an expression. -/
def textExpr (content : List Char) : Expr := .literal (.ofString (String.ofList content))

/-- The parts of a branch or a loop as one text. -/
def branchExpr (parts : List Expr) : Expr :=
  .template (if parts.isEmpty then [textExpr []] else parts)

/-- How a stretch of parts ends. -/
inductive Ending where
  | finish
  | elseMark
  | ifEnd
  | forEnd
deriving DecidableEq

/-- The expressions of parts up to the end of the directive around them; `fuel`
    bounds the number of parts. -/
def gather : (fuel : Nat) → List Part → Option (List Expr × Ending × List Part)
  | _, [] => some ([], .finish, [])
  | 0, _ => none
  | fuel + 1, part :: rest =>
    let continueWith := fun (e : Expr) (rest : List Part) => do
      let (exprs, ending, left) ← gather fuel rest
      return (e :: exprs, ending, left)
    match part with
    | .text content => continueWith (textExpr content) rest
    | .value e => continueWith e rest
    | .elseMark => some ([], .elseMark, rest)
    | .ifEnd => some ([], .ifEnd, rest)
    | .forEnd => some ([], .forEnd, rest)
    | .ifStart condition => do
      let (yes, ending, rest) ← gather fuel rest
      match ending with
      | .ifEnd => continueWith (.conditional condition (branchExpr yes) (branchExpr [])) rest
      | .elseMark => do
        let (no, ending, rest) ← gather fuel rest
        if ending = .ifEnd then
          continueWith (.conditional condition (branchExpr yes) (branchExpr no)) rest
        else none
      | _ => none
    | .forStart binding source => do
      let (body, ending, rest) ← gather fuel rest
      if ending = .forEnd then
        continueWith (.join (.forTuple binding source (branchExpr body) (.literal (.bool true)))) rest
      else none

/-- The expression of a template. -/
def templateExpr (flush : Bool) (parts : List Part) : Option Expr :=
  let parts := if parts.isEmpty then [.text []] else parts
  let parts := if flush then flushParts parts else parts
  match parts with
  | [.value e] => some (.group e)
  | parts => do
    let (exprs, ending, _) ← gather parts.length parts
    if ending = .finish then return .template exprs else none

end SeaOfNodes.Document
