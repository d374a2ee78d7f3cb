/-
  SeaOfNodes.Number.Decimal

  Decimal numerals: an optional sign, digits with at most one point among them,
  and an optional exponent.  A numeral is kept exactly, as an integer and the
  power of ten and of two it is multiplied with.
-/
import SeaOfNodes.Number.Binary

namespace SeaOfNodes.Number

/-- The number `± coeff * 10 ^ tens * 2 ^ twos`. -/
structure Decimal where
  negative : Bool
  coeff : Nat
  tens : Int
  twos : Int
deriving DecidableEq

namespace Decimal

/-- A decimal digit. -/
def isDigit (c : Char) : Bool := '0' ≤ c && c ≤ '9'

/-- The number written by decimal digits, most significant first. -/
def readDigits (digits : List Char) : Nat :=
  digits.foldl (fun n c => n * 10 + (c.toNat - '0'.toNat)) 0

/-- Take an optional sign off a text. -/
def readSign : List Char → Bool × List Char
  | '-' :: rest => (true, rest)
  | '+' :: rest => (false, rest)
  | rest => (false, rest)

/-- Read an exponent: a sign and at least one digit, to the end of the text. -/
def readExponent? (text : List Char) : Option Int :=
  let (negative, digits) := readSign text
  if digits.isEmpty || !digits.all isDigit then none
  else some (if negative then -(readDigits digits : Int) else readDigits digits)

/-- Read a numeral.  The point may stand before the first or after the last
    digit; an exponent of ten follows `e`, one of two follows `p`. -/
def parse? (text : String) : Option Decimal :=
  let (negative, rest) := readSign text.toList
  let (whole, rest) := rest.span isDigit
  let (fraction, rest) :=
    match rest with
    | '.' :: rest => rest.span isDigit
    | rest => ([], rest)
  if whole.isEmpty && fraction.isEmpty then none
  else
    let coeff := readDigits (whole ++ fraction)
    let tens := -(fraction.length : Int)
    match rest with
    | [] => some ⟨negative, coeff, tens, 0⟩
    | mark :: rest =>
      if mark = 'e' ∨ mark = 'E' then
        (readExponent? rest).map fun e => ⟨negative, coeff, tens + e, 0⟩
      else if mark = 'p' ∨ mark = 'P' then
        (readExponent? rest).map fun e => ⟨negative, coeff, tens, e⟩
      else none

/-- An exponent of two that is beyond every double, in both directions. -/
def farExponent : Int := 2000

/-- The double nearest to a numeral without a power of two, or none if the
    numeral is too large for one.  A power of ten is at least as far from one as
    the same power of eight, so the bits of the coefficient tell the numerals
    that are far too large or too small. -/
def toDouble? (d : Decimal) : Option Double :=
  let bits : Int := Nat.log2 d.coeff + 1
  if d.coeff = 0 then some (.ofRatio d.negative 0 1)
  else if 0 ≤ d.tens ∧ farExponent < bits + 3 * d.tens then none
  else if d.tens < 0 ∧ bits + 3 * d.tens < -farExponent then some (.ofRatio d.negative 0 1)
  else
    let value :=
      if 0 ≤ d.tens then Double.ofRatio d.negative (d.coeff * Nat.pow 10 d.tens.toNat) 1
      else Double.ofRatio d.negative d.coeff (Nat.pow 10 (-d.tens).toNat)
    match value.datum with
    | .finite .. => some value
    | _ => none

end Decimal

end SeaOfNodes.Number
