/-
  SeaOfNodes.Description.Equal

  Equality of values.  Nulls of all types are equal; other values are equal only
  if their types are.  Two numbers are equal if they have the same text.
-/
import SeaOfNodes.Description.Value

namespace SeaOfNodes.Description

open Number (BigFloat)

/-- Whether two numbers have the same text, but for the sign of a zero. -/
def numbersEqual (a b : BigFloat) : Bool :=
  (a.isZero && b.isZero) || (a.isNegative == b.isNegative && a.text == b.text)

namespace Value

/-- Both of two answers, of which a negative one decides. -/
def bothKnown : Option Bool → Option Bool → Option Bool
  | some false, _ => some false
  | _, some false => some false
  | some true, some true => some true
  | _, _ => none

mutual

/-- Whether two values of one type are equal, if that is known. -/
def sameAs (v w : Value) : Option Bool :=
  match v, w with
  | .unknown _, _ => none
  | _, .unknown _ => none
  | .null _, .null _ => some true
  | .number a, .number b => some (numbersEqual a b)
  | .string a, .string b => some (a == b)
  | .bool a, .bool b => some (a == b)
  | .list _ xs, .list _ ys => sameItems xs ys
  | .set _ xs, .set _ ys => sameItems xs ys
  | .tuple xs, .tuple ys => sameItems xs ys
  | .map _ xs, .map _ ys => sameEntries xs ys
  | .object xs, .object ys => sameEntries xs ys
  | _, _ => some false

/-- Whether values are equal one by one. -/
def sameItems : List Value → List Value → Option Bool
  | [], [] => some true
  | v :: vs, w :: ws => bothKnown (sameAs v w) (sameItems vs ws)
  | _, _ => some false

/-- Whether named values are equal one by one. -/
def sameEntries : List (String × Value) → List (String × Value) → Option Bool
  | [], [] => some true
  | (k, v) :: vs, (l, w) :: ws =>
    if k = l then bothKnown (sameAs v w) (sameEntries vs ws) else some false
  | _, _ => some false

end

/-- Whether two values are equal, if that is known. -/
def equal? (v w : Value) : Option Bool :=
  match v, w with
  | .unknown _, _ => none
  | _, .unknown _ => none
  | .null _, .null _ => some true
  | v, w => if v.type == w.type then sameAs v w else some false

end Value

end SeaOfNodes.Description
