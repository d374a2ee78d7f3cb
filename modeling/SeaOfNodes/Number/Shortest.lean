/-
  SeaOfNodes.Number.Shortest

  The text of a double: the fewest decimal digits that read back as the same
  double and, of those, the ones nearest to it.  The digits are found on decimal
  grids of one, two, ... digits: on each grid only the two neighbours of the
  value can be nearest, and the first grid with a neighbour inside the interval
  of ratios that round to the double wins.

  Digits stand positionally while the decimal exponent is from -4 to 5; outside
  that range they are followed by an exponent of at least two digits.
-/
import SeaOfNodes.Number.Binary

namespace SeaOfNodes.Number

/-- Decimal digits of a natural number, most significant first; zero has
    none. -/
def decimalDigits (n : Nat) : List Nat :=
  if n = 0 then [] else (Nat.toDigits 10 n).map fun c => c.toNat - '0'.toNat

/-- A digit as a character. -/
def digitChar (d : Nat) : Char := Char.ofNat ('0'.toNat + d)

/-- Digits `d₁ d₂ …` of the number `0.d₁d₂… * 10 ^ point`. -/
structure Digits where
  digits : List Nat
  point : Int
deriving DecidableEq

namespace Shortest

/-- The ratios that round to a positive double, in units of a quarter of its
    last place: the double is `4 * coeff`, the ends lie half a unit away, and
    below a power of two only a quarter. -/
structure Interval where
  value : Nat
  low : Nat
  high : Nat
  /-- The exponent of the unit. -/
  exp : Int
  /-- Whether the ends themselves round to the double. -/
  closed : Bool

/-- The interval of a positive double. -/
def interval (coeff : Nat) (exp : Int) : Interval :=
  let boundary := coeff = Nat.pow 2 Format.double.fractionBits ∧ exp ≠ Format.double.leastExponent
  ⟨4 * coeff, 4 * coeff - (if boundary then 1 else 2), 4 * coeff + 2, exp - 2, coeff % 2 = 0⟩

/-- Compare `a * 2 ^ exp` with `n * 10 ^ grid`, both given as natural numbers
    after scaling by positive powers. -/
def scalePair (a : Nat) (exp : Int) (grid : Int) : Nat × Nat :=
  (a * Nat.pow 2 exp.toNat * Nat.pow 10 (-grid).toNat, Nat.pow 2 (-exp).toNat * Nat.pow 10 grid.toNat)

/-- Whether `n * 10 ^ grid` lies in the interval. -/
def Interval.contains (i : Interval) (n : Nat) (grid : Int) : Bool :=
  let (low, unit) := scalePair i.low i.exp grid
  let (high, _) := scalePair i.high i.exp grid
  if i.closed then low ≤ n * unit && n * unit ≤ high else low < n * unit && n * unit < high

/-- The neighbour of the value on the grid `10 ^ grid` that lies in the
    interval: the nearer of two, and of two equally near the even one. -/
def Interval.pick? (i : Interval) (grid : Int) : Option Nat :=
  let (value, unit) := scalePair i.value i.exp grid
  let below := value / unit
  let above := below + 1
  match i.contains below grid && below ≠ 0, i.contains above grid with
  | true, true =>
    if 2 * (value % unit) < unit ∨ (2 * (value % unit) = unit ∧ below % 2 = 0) then some below
    else some above
  | true, false => some below
  | false, true => some above
  | false, false => none

/-- The first grid from `grid` down that has a hit, with the hit. -/
def search (i : Interval) : Nat → Int → Nat × Int
  | 0, grid => ((i.pick? grid).getD 0, grid)
  | fuel + 1, grid =>
    match i.pick? grid with
    | some n => (n, grid)
    | none => search i fuel (grid - 1)

/-- The number of decimal digits before the point of a positive ratio, or minus
    the number of zeros after it: an estimate that is never too small. -/
def pointEstimate (coeff : Nat) (exp : Int) : Int :=
  ((Nat.log2 coeff : Int) + exp + 1) * 30103 / 100000 + 1

/-- The shortest digits of a positive double. -/
def digits (coeff : Nat) (exp : Int) : Digits :=
  let (n, grid) := search (interval coeff exp) 20 (pointEstimate coeff exp)
  let ds := decimalDigits n
  ⟨(ds.reverse.dropWhile (· = 0)).reverse, grid + ds.length⟩

end Shortest

/-- A decimal exponent: a sign and at least two digits. -/
def exponentText (e : Int) : List Char :=
  let ds := (decimalDigits e.natAbs).map digitChar
  (if e < 0 then '-' else '+') :: (List.replicate (2 - ds.length) '0' ++ ds)

/-- Digits with the point among, before or after them. -/
def Digits.positional (d : Digits) : List Char :=
  let cs := d.digits.map digitChar
  if d.point ≤ 0 then '0' :: '.' :: (List.replicate (-d.point).toNat '0' ++ cs)
  else
    let whole := cs.take d.point.toNat
    let fraction := cs.drop d.point.toNat
    whole ++ List.replicate (d.point.toNat - whole.length) '0'
      ++ (if fraction.isEmpty then [] else '.' :: fraction)

/-- Digits with the point after the first, and the exponent. -/
def Digits.scientific (d : Digits) : List Char :=
  let cs := d.digits.map digitChar
  cs.take 1 ++ (if cs.length ≤ 1 then [] else '.' :: cs.drop 1) ++ 'e' :: exponentText (d.point - 1)

/-- The text of a double. -/
def Double.text (d : Double) : String :=
  match d.datum with
  | .nan => "NaN"
  | .inf negative => if negative then "-Inf" else "+Inf"
  | .finite negative coeff exp =>
    let magnitude :=
      if coeff = 0 then ['0']
      else
        let ds := Shortest.digits coeff exp
        if -4 ≤ ds.point - 1 ∧ ds.point - 1 < 6 then ds.positional else ds.scientific
    String.ofList (if negative then '-' :: magnitude else magnitude)

end SeaOfNodes.Number
