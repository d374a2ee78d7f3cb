/-
  SeaOfNodes.Document.Syntax

  What a description file says: attributes with expressions, and blocks with
  labels and bodies of their own.
-/
import SeaOfNodes.Description.Value

namespace SeaOfNodes.Document

open Description (Value)

/-- Operations on one value. -/
inductive UnaryOp where
  | negate
  | not
deriving DecidableEq

/-- Operations on two values. -/
inductive BinaryOp where
  | or
  | and
  | equal
  | notEqual
  | less
  | lessEqual
  | greater
  | greaterEqual
  | add
  | subtract
  | multiply
  | divide
  | modulo
deriving DecidableEq

/-- The names that a `for` gives to the keys and the values it runs through. -/
structure Binding where
  key? : Option String
  value : String
deriving DecidableEq

/-- An expression. -/
inductive Expr where
  | literal (value : Value)
  | variable (name : String)
  /-- The element that the splat around it has reached. -/
  | element
  /-- An expression without a value: a call of a function, or a key of an object
      that may be meant in two ways. -/
  | refused
  /-- An expression in parentheses, or alone in a template. -/
  | group (inner : Expr)
  /-- Parts of a text. -/
  | template (parts : List Expr)
  /-- The elements of a tuple as parts of a text. -/
  | join (elements : Expr)
  | unary (op : UnaryOp) (operand : Expr)
  | binary (op : BinaryOp) (left right : Expr)
  | conditional (condition yes no : Expr)
  | tuple (items : List Expr)
  | object (entries : List (Expr × Expr))
  | attribute (source : Expr) (name : String)
  | index (source key : Expr)
  /-- The same steps from every element of a value. -/
  | splat (source each : Expr)
  | forTuple (binding : Binding) (source body condition : Expr)
  | forObject (binding : Binding) (source key body condition : Expr) (grouped : Bool)

/-- A block. -/
inductive Block where
  | mk (type : String) (labels : List String) (attributes : List (String × Expr))
    (blocks : List Block)

/-- What stands between the braces of a block, or in a file. -/
structure Body where
  attributes : List (String × Expr)
  blocks : List Block

namespace Block

/-- The type of a block. -/
def type : Block → String
  | mk type _ _ _ => type

/-- The labels of a block. -/
def labels : Block → List String
  | mk _ labels _ _ => labels

/-- The body of a block. -/
def body : Block → Body
  | mk _ _ attributes blocks => ⟨attributes, blocks⟩

end Block

end SeaOfNodes.Document
