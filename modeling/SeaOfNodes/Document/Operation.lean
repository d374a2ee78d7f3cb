/-
  SeaOfNodes.Document.Operation

  What operators do to values.  An operand is first turned into the type that the
  operator works on; a null is refused, but for a test of equality.
-/
import SeaOfNodes.Description.Equal
import SeaOfNodes.Document.Step
import SeaOfNodes.Document.Syntax

namespace SeaOfNodes.Document

open Description (Value ValueType)
open Number (BigFloat)

namespace UnaryOp

/-- The type that an operator works on, and gives. -/
def type : UnaryOp → ValueType
  | .negate => .number
  | .not => .bool

/-- Apply an operator to an operand of its type. -/
def apply (op : UnaryOp) (v : Value) : Evaluation :=
  match op, v with
  | _, .unknown _ => .done (.unknown op.type)
  | .negate, .number n => .done (.number n.neg)
  | .not, .bool b => .done (.bool !b)
  | _, _ => .faulty op.type

end UnaryOp

namespace BinaryOp

/-- The type that an operator turns its operands into. -/
def operandType : BinaryOp → ValueType
  | .or | .and => .bool
  | .equal | .notEqual => .dynamic
  | _ => .number

/-- The type that an operator gives. -/
def resultType : BinaryOp → ValueType
  | .add | .subtract | .multiply | .divide | .modulo => .number
  | _ => .bool

/-- Arithmetic on two numbers. -/
def arithmetic (op : BinaryOp) (a b : BigFloat) : Option BigFloat :=
  match op with
  | .add => a.add? b
  | .subtract => a.sub? b
  | .multiply => a.mul? b
  | .divide => a.div? b
  | .modulo => a.mod? b
  | _ => none

/-- A test on two numbers, by their order. -/
def accepts (op : BinaryOp) (order : Ordering) : Bool :=
  match op with
  | .less => order == .lt
  | .lessEqual => order != .gt
  | .greater => order == .gt
  | .greaterEqual => order != .lt
  | _ => false

/-- The outcome of a test that may be unknown. -/
def truth (answer : Option Bool) : Evaluation :=
  match answer with
  | some b => .done (.bool b)
  | none => .done (.unknown .bool)

/-- Apply an operator to operands of its type. -/
def apply (op : BinaryOp) (left right : Value) : Evaluation :=
  if op = .equal then truth (left.equal? right)
  else if op = .notEqual then truth ((left.equal? right).map (!·))
  else
    match left, right with
    | .null _, _ => .faulty op.resultType
    | _, .null _ => .faulty op.resultType
    | .bool a, .bool b => .done (.bool (if op = .or then a || b else a && b))
    | .number a, .number b =>
      if op.resultType == .number then
        match op.arithmetic a b with
        | some n => .done (.number n)
        | none => .faulty .number
      else .done (.bool (op.accepts (a.compare b)))
    | _, _ => .done (.unknown op.resultType)

end BinaryOp

/-- Apply an operator to what an operand evaluates to. -/
def applyUnary (op : UnaryOp) (operand : Evaluation) : Evaluation :=
  match operand.value.convertTo? op.type with
  | some v => if operand.failed then .faulty op.type else op.apply v
  | none => .faulty op.type

/-- Apply an operator to what two operands evaluate to. -/
def applyBinary (op : BinaryOp) (left right : Evaluation) : Evaluation :=
  match left.value.convertTo? op.operandType, right.value.convertTo? op.operandType with
  | some v, some w =>
    if left.failed || right.failed then .faulty op.resultType else op.apply v w
  | _, _ => .faulty op.resultType

end SeaOfNodes.Document
