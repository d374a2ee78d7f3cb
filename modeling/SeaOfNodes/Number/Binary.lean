/-
  SeaOfNodes.Number.Binary

  Binary floating-point formats.  A format has a sign bit, a biased exponent
  field and a fraction field; a bit pattern stands for a number
  `± coeff * 2 ^ exp`, an infinity or no number at all.  `Format.round` gives
  the pattern nearest to a ratio of two natural numbers, ties going to the even
  coefficient.
-/

namespace SeaOfNodes.Number

/-- A binary floating-point format. -/
structure Format where
  exponentBits : Nat
  fractionBits : Nat
deriving DecidableEq

namespace Format

/-- Two bytes: 5 exponent bits, 10 fraction bits. -/
def half : Format := ⟨5, 10⟩

/-- Four bytes: 8 exponent bits, 23 fraction bits. -/
def single : Format := ⟨8, 23⟩

/-- Eight bytes: 11 exponent bits, 52 fraction bits. -/
def double : Format := ⟨11, 52⟩

/-- Exponent of the unit in the last place of the smallest numbers. -/
def leastExponent (f : Format) : Int :=
  2 - (Nat.pow 2 (f.exponentBits - 1) : Nat) - f.fractionBits

/-- The exponent field of infinities. -/
def topField (f : Format) : Nat := Nat.pow 2 f.exponentBits - 1

/-- The pattern of the sign bit alone. -/
def signBit (f : Format) : Nat := Nat.pow 2 (f.exponentBits + f.fractionBits)

/-- The pattern of positive infinity. -/
def infinity (f : Format) : Nat := f.topField * Nat.pow 2 f.fractionBits

end Format

/-- What a bit pattern stands for. -/
inductive Datum where
  | nan
  | inf (negative : Bool)
  /-- The number `coeff * 2 ^ exp`, or its negation. -/
  | finite (negative : Bool) (coeff : Nat) (exp : Int)
deriving DecidableEq

namespace Format

/-- What a bit pattern of the format stands for. -/
def decode (f : Format) (bits : Nat) : Datum :=
  let negative := bits / f.signBit % 2 = 1
  let field := bits / Nat.pow 2 f.fractionBits % Nat.pow 2 f.exponentBits
  let fraction := bits % Nat.pow 2 f.fractionBits
  if field = f.topField then
    if fraction = 0 then .inf negative else .nan
  else if field = 0 then .finite negative fraction f.leastExponent
  else .finite negative (Nat.pow 2 f.fractionBits + fraction) (f.leastExponent + (field - 1 : Nat))

end Format

/-- A ratio times a power of two, as a ratio. -/
def scaleRatio (num den : Nat) (exp : Int) : Nat × Nat :=
  if 0 ≤ exp then (num * Nat.pow 2 exp.toNat, den) else (num, den * Nat.pow 2 (-exp).toNat)

/-- The natural number nearest to a ratio, a tie going to the even one. -/
def roundHalfEven (num den : Nat) : Nat :=
  let quotient := num / den
  let twice := 2 * (num % den)
  if den < twice ∨ (den = twice ∧ quotient % 2 = 1) then quotient + 1 else quotient

/-- The `e` with `2 ^ e ≤ num / den < 2 ^ (e + 1)`, for positive numbers. -/
def ratioLog (num den : Nat) : Int :=
  let e : Int := (Nat.log2 num : Int) - Nat.log2 den
  let (n, d) := scaleRatio num den (-e)
  if n < d then e - 1 else e

namespace Format

/-- The magnitude pattern nearest to a positive ratio: with `unit` the exponent
    of the last place, the pattern is the rounded coefficient plus one fraction
    field for every step of `unit` above the least.  Too large a ratio gives
    infinity. -/
def roundMagnitude (f : Format) (num den : Nat) : Nat :=
  if num = 0 then 0
  else
    let unit := max (ratioLog num den - f.fractionBits) f.leastExponent
    let (n, d) := scaleRatio num den (-unit)
    min ((unit - f.leastExponent).toNat * Nat.pow 2 f.fractionBits + roundHalfEven n d) f.infinity

/-- The pattern nearest to a ratio with a sign. -/
def round (f : Format) (negative : Bool) (num den : Nat) : Nat :=
  (if negative then f.signBit else 0) + f.roundMagnitude num den

/-- The pattern nearest to `± coeff * 2 ^ exp`. -/
def roundFloat (f : Format) (negative : Bool) (coeff : Nat) (exp : Int) : Nat :=
  let (n, d) := scaleRatio coeff 1 exp
  f.round negative n d

end Format

/-- Whether two finite data stand for the same number. -/
def sameNumber (coeff₁ : Nat) (exp₁ : Int) (coeff₂ : Nat) (exp₂ : Int) : Bool :=
  if exp₁ ≤ exp₂ then coeff₁ == coeff₂ * Nat.pow 2 (exp₂ - exp₁).toNat
  else coeff₁ * Nat.pow 2 (exp₁ - exp₂).toNat == coeff₂

namespace Format

/-- The pattern that stands for exactly `± coeff * 2 ^ exp`, if there is one. -/
def represent? (f : Format) (negative : Bool) (coeff : Nat) (exp : Int) : Option Nat :=
  let bits := f.roundFloat negative coeff exp
  match f.decode bits with
  | .finite _ c e => if sameNumber c e coeff exp then some bits else none
  | _ => none

end Format

/-- A double, by its bit pattern. -/
structure Double where
  bits : UInt64
deriving DecidableEq

namespace Double

/-- What a double stands for. -/
def datum (d : Double) : Datum := Format.double.decode d.bits.toNat

/-- The double with a given pattern of a format that is at most as wide: the
    number is the same, and no number stays none. -/
def ofPattern (f : Format) (bits : Nat) : Double :=
  match f.decode bits with
  | .nan => ⟨0x7ff8000000000001⟩
  | .inf negative =>
    ⟨UInt64.ofNat ((if negative then Format.double.signBit else 0) + Format.double.infinity)⟩
  | .finite negative coeff exp => ⟨UInt64.ofNat (Format.double.roundFloat negative coeff exp)⟩

/-- The double nearest to a ratio with a sign. -/
def ofRatio (negative : Bool) (num den : Nat) : Double :=
  ⟨UInt64.ofNat (Format.double.round negative num den)⟩

/-- Positive or negative infinity. -/
def infinity (negative : Bool) : Double :=
  ⟨UInt64.ofNat ((if negative then Format.double.signBit else 0) + Format.double.infinity)⟩

/-- A pattern that stands for no number. -/
def nan : Double := ⟨0x7ff8000000000001⟩

end Double

end SeaOfNodes.Number
