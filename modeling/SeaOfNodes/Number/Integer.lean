/-
  SeaOfNodes.Number.Integer

  Integers of 64 bits as they are written: with a sign, with a mark for the base
  (`0b`, `0o` or a plain `0`, and `0x`), and with underscores between digits.
-/
import SeaOfNodes.Text.Escape

namespace SeaOfNodes.Number

/-- An integer as a word of 64 bits, if it fits. -/
def toWord? (n : Int) : Option Int64 :=
  if Int64.minValue.toInt ≤ n ∧ n ≤ Int64.maxValue.toInt then some (Int64.ofInt n) else none

/-- Whether every underscore follows a digit and none is the last character;
    `before` tells whether a digit came before. -/
def underscoresFit (before : Bool) : List Char → Bool
  | [] => before
  | c :: rest => (c != '_' || before) && underscoresFit (Text.hexDigitValue? c).isSome rest

/-- Why a text is no integer. -/
inductive IntegerFault where
  | malformed
  | outOfRange
deriving DecidableEq

/-- Digits of a base, underscores left out, behind a number read before.  A number
    that is too large for 64 bits is refused where it becomes so. -/
def readBaseDigits (base : Nat) (n : Nat) : List Char → Except IntegerFault Nat
  | [] => .ok n
  | c :: rest =>
    if c = '_' then readBaseDigits base n rest
    else
      match Text.hexDigitValue? c with
      | none => .error .malformed
      | some d =>
        if base ≤ d then .error .malformed
        else if 0x10000000000000000 ≤ n * base + d then .error .outOfRange
        else readBaseDigits base (n * base + d) rest

/-- The base that a letter behind a zero stands for. -/
def markedBase? (c : Char) : Option Nat :=
  if c = 'b' ∨ c = 'B' then some 2
  else if c = 'o' ∨ c = 'O' then some 8
  else if c = 'x' ∨ c = 'X' then some 16
  else none

/-- The magnitude of an integer. -/
def readMagnitude (cs : List Char) : Except IntegerFault Nat := do
  let (base, marked, digits) :=
    match cs with
    | '0' :: c :: d :: rest =>
      match markedBase? c with
      | some base => (base, true, d :: rest)
      | none => (8, false, cs)
    | '0' :: _ => (8, false, cs)
    | _ => (10, false, cs)
  if digits.isEmpty then throw .malformed
  let n ← readBaseDigits base 0 digits
  if digits.contains '_' && !underscoresFit marked digits then throw .malformed
  return n

/-- The integer that a text stands for. -/
def readInteger (text : String) : Except IntegerFault Int64 := do
  let (negative, digits) :=
    match text.toList with
    | '+' :: rest => (false, rest)
    | '-' :: rest => (true, rest)
    | cs => (false, cs)
  let n ← readMagnitude digits
  let value : Int := if negative then -n else n
  match toWord? value with
  | some word => return word
  | none => throw .outOfRange

end SeaOfNodes.Number
