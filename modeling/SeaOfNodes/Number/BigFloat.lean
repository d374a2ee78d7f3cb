/-
  SeaOfNodes.Number.BigFloat

  The numbers of graph descriptions: binary floating-point numbers and two
  infinities.  A finite number carries its precision in bits.  An operation
  rounds to the higher precision of its operands, to nearest and ties to even;
  one without a meaningful result (zero by zero, an infinity less itself) has
  none.

  A decimal numeral is turned into such a number by one multiplication or
  division by a power of five, and the power itself is kept to 576 bits.  The
  text of a number is the shortest positional decimal that the digit-wise
  comparison with the two half-way neighbours lets through.
-/
import SeaOfNodes.Number.Decimal
import SeaOfNodes.Number.Integer
import SeaOfNodes.Number.Shortest

namespace SeaOfNodes.Number

/-- A number `± coeff * 2 ^ exp` with its precision, or an infinity.  Zero has a
    sign. -/
inductive BigFloat where
  | inf (negative : Bool)
  | finite (negative : Bool) (coeff : Nat) (exp : Int) (bits : Nat)
deriving DecidableEq

namespace BigFloat

/-- Bits of precision of a numeral. -/
def precision : Nat := 512

/-- Bits of precision that an integer has at least. -/
def wordPrecision : Nat := 64

/-- The largest exponent of a leading bit. -/
def maxExponent : Int := 0x7fffffff

/-- The least exponent of a leading bit. -/
def minExponent : Int := -0x80000000

/-- The number of bits of a natural number. -/
def bitLength (n : Nat) : Nat := if n = 0 then 0 else Nat.log2 n + 1

/-- Round the ratio `num / den` to `bits` bits: a coefficient and an exponent. -/
def roundRatio (bits num den : Nat) : Nat × Int :=
  if num = 0 then (0, 0)
  else
    let unit := ratioLog num den + 1 - bits
    let (n, d) := scaleRatio num den (-unit)
    (roundHalfEven n d, unit)

/-- Round `coeff * 2 ^ exp` to `bits` bits. -/
def roundBits (bits coeff : Nat) (exp : Int) : Nat × Int :=
  let len := bitLength coeff
  if len ≤ bits then (coeff, exp)
  else
    let drop := len - bits
    (roundHalfEven coeff (Nat.pow 2 drop), exp + drop)

/-- The number with the given parts, rounded to `bits` bits.  A number whose
    leading bit is out of the range of exponents becomes an infinity or a
    zero. -/
def make (bits : Nat) (negative : Bool) (coeff : Nat) (exp : Int) : BigFloat :=
  let (c, e) := roundBits bits coeff exp
  if c = 0 then .finite negative 0 0 bits
  else
    let top := e + bitLength c
    if maxExponent < top then .inf negative
    else if top < minExponent then .finite negative 0 0 bits
    else .finite negative c e bits

/-- An integer as a number, exactly. -/
def ofInt (n : Int) : BigFloat :=
  make (max wordPrecision (bitLength n.natAbs)) (n < 0) n.natAbs 0

/-- The precision of a number. -/
def bits : BigFloat → Nat
  | .inf _ => precision
  | .finite _ _ _ bits => bits

/-- Whether a number is a zero of either sign. -/
def isZero : BigFloat → Bool
  | .finite _ c _ _ => c == 0
  | .inf _ => false

/-- Whether a number has its sign set. -/
def isNegative : BigFloat → Bool
  | .finite n _ _ _ => n
  | .inf n => n

/-- The number with the other sign. -/
def neg : BigFloat → BigFloat
  | .inf n => .inf !n
  | .finite n c e bits => .finite (!n) c e bits

/-- The signed coefficient of a finite number at a lower exponent. -/
def signedAt (negative : Bool) (coeff : Nat) (exp low : Int) : Int :=
  let magnitude : Int := (coeff * Nat.pow 2 (exp - low).toNat : Nat)
  if negative then -magnitude else magnitude

/-- Sum to a given precision.  The sum of two zeros is negative only if both are;
    another sum that vanishes is positive. -/
def addTo? (bits : Nat) : BigFloat → BigFloat → Option BigFloat
  | .inf a, .inf b => if a = b then some (.inf a) else none
  | .inf a, .finite .. => some (.inf a)
  | .finite .., .inf b => some (.inf b)
  | .finite n₁ c₁ e₁ _, .finite n₂ c₂ e₂ _ =>
    if c₁ = 0 ∧ c₂ = 0 then some (.finite (n₁ && n₂) 0 0 bits)
    else if c₁ = 0 then some (make bits n₂ c₂ e₂)
    else if c₂ = 0 then some (make bits n₁ c₁ e₁)
    else
      let low := min e₁ e₂
      let sum := signedAt n₁ c₁ e₁ low + signedAt n₂ c₂ e₂ low
      some (make bits (sum < 0) sum.natAbs low)

/-- Product to a given precision. -/
def mulTo? (bits : Nat) : BigFloat → BigFloat → Option BigFloat
  | .finite n₁ c₁ e₁ _, .finite n₂ c₂ e₂ _ => some (make bits (n₁ != n₂) (c₁ * c₂) (e₁ + e₂))
  | a, b => if a.isZero || b.isZero then none else some (.inf (a.isNegative != b.isNegative))

/-- Sum. -/
def add? (a b : BigFloat) : Option BigFloat := addTo? (max a.bits b.bits) a b

/-- Difference. -/
def sub? (a b : BigFloat) : Option BigFloat := add? a b.neg

/-- Product. -/
def mul? (a b : BigFloat) : Option BigFloat := mulTo? (max a.bits b.bits) a b

/-- Quotient. -/
def div? : BigFloat → BigFloat → Option BigFloat
  | .inf _, .inf _ => none
  | .inf a, .finite b _ _ _ => some (.inf (a != b))
  | .finite a _ _ bits, .inf b => some (.finite (a != b) 0 0 bits)
  | .finite n₁ c₁ e₁ b₁, .finite n₂ c₂ e₂ b₂ =>
    let negative := n₁ != n₂
    if c₂ = 0 then if c₁ = 0 then none else some (.inf negative)
    else
      let (c, e) := roundRatio (max b₁ b₂) c₁ c₂
      some (make (max b₁ b₂) negative c (e + e₁ - e₂))

/-- The integer part, toward zero. -/
def truncate? : BigFloat → Option Int
  | .inf _ => none
  | .finite n c e _ =>
    let magnitude : Int := (if 0 ≤ e then c * Nat.pow 2 e.toNat else c / Nat.pow 2 (-e).toNat : Nat)
    some (if n then -magnitude else magnitude)

/-- The integer part as a word of 64 bits, if it fits. -/
def toWord? (n : BigFloat) : Option Int64 :=
  match n with
  | .inf _ => none
  | .finite _ c e _ =>
    -- A leading bit beyond the word needs no expansion.
    if wordPrecision < e + bitLength c then none else n.truncate?.bind Number.toWord?

/-- Remainder with the sign of the dividend.  Nothing is taken off when the
    divisor is zero or the dividend infinite.  What is taken off, and what is
    left, has the precision of the whole quotient as an integer. -/
def mod? (a b : BigFloat) : Option BigFloat := do
  if b.isZero then return a
  let quotient ← a.div? b
  let whole := ofInt (quotient.truncate?.getD 0)
  let product ← mulTo? whole.bits b whole
  addTo? whole.bits a product.neg

/-- Order of two numbers; zeros of both signs are equal. -/
def compare : BigFloat → BigFloat → Ordering
  | .inf a, .inf b => if a = b then .eq else if a then .lt else .gt
  | .inf a, .finite .. => if a then .lt else .gt
  | .finite .., .inf b => if b then .gt else .lt
  | .finite n₁ c₁ e₁ _, .finite n₂ c₂ e₂ _ =>
    let low := min e₁ e₂
    Ord.compare (signedAt n₁ c₁ e₁ low) (signedAt n₂ c₂ e₂ low)

/-- Whether a number has no fractional part. -/
def isWhole : BigFloat → Bool
  | .inf _ => false
  | .finite _ c e _ => 0 ≤ e || c % Nat.pow 2 (-e).toNat == 0

/-- The double nearest to a number. -/
def toDouble : BigFloat → Double
  | .inf n => Double.infinity n
  | .finite n c e _ => ⟨UInt64.ofNat (Format.double.roundFloat n c e)⟩

/-! ## Decimal numerals -/

/-- Product of two coefficients with exponents, rounded to `bits` bits. -/
def mulBits (bits : Nat) (a b : Nat × Int) : Nat × Int :=
  roundBits bits (a.1 * b.1) (a.2 + b.2)

/-- Multiply `result` by `base ^ n` with repeated squaring, keeping the result to
    `bits` bits and the squares to 64 more. -/
def powerLoop (bits : Nat) : (fuel : Nat) → (result base : Nat × Int) → (n : Nat) → Nat × Int
  | 0, result, _, _ => result
  | fuel + 1, result, base, n =>
    if n = 0 then result
    else
      let result := if n % 2 = 1 then mulBits bits result base else result
      powerLoop bits fuel result (mulBits (bits + 64) base base) (n / 2)

/-- The power `5 ^ n`, exact while it fits 64 bits and to `bits` bits above. -/
def powerOfFive (bits n : Nat) : Nat × Int :=
  if n ≤ 27 then (Nat.pow 5 n, 0)
  else powerLoop bits (bitLength n) (Nat.pow 5 27, 0) (5, 0) (n - 27)

/-- Bits kept of the power of five that a numeral is scaled with. -/
def scalePrecision : Nat := precision + 64

/-- The number of a decimal numeral.  There is none if the exponent is out of
    range before the scaling with a power of five. -/
def ofDecimal? (d : Decimal) : Option BigFloat :=
  if d.coeff = 0 then some (.finite d.negative 0 0 precision)
  else
    let twos := d.tens + d.twos
    let top := twos + bitLength d.coeff
    if top < minExponent ∨ maxExponent < top then none
    else if d.tens = 0 then some (make precision d.negative d.coeff twos)
    else
      let (p, pe) := powerOfFive scalePrecision d.tens.natAbs
      if d.tens < 0 then
        let (c, e) := roundRatio precision d.coeff p
        some (make precision d.negative c (e - pe + twos))
      else some (make precision d.negative (d.coeff * p) (pe + twos))

/-- The number a text stands for: a decimal numeral, or an infinity. -/
def parse? (text : String) : Option BigFloat :=
  if text = "Inf" ∨ text = "inf" ∨ text = "+Inf" ∨ text = "+inf" then some (.inf false)
  else if text = "-Inf" ∨ text = "-inf" then some (.inf true)
  else (Decimal.parse? text).bind ofDecimal?

/-! ## Text -/

/-- The exact decimal digits of a positive number `coeff * 2 ^ exp`. -/
def exactDigits (coeff : Nat) (exp : Int) : Digits :=
  let ds := decimalDigits (coeff * (if 0 ≤ exp then Nat.pow 2 exp.toNat else Nat.pow 5 (-exp).toNat))
  ⟨(ds.reverse.dropWhile (· = 0)).reverse, ds.length + min exp 0⟩

/-- The digit at an index, with zeros behind the last one. -/
def digitAt (d : Digits) (i : Nat) : Nat := d.digits.getD i 0

/-- Add one in the last place. -/
def increment : List Nat → List Nat × Bool
  | [] => ([], true)
  | d :: rest =>
    match increment rest with
    | (rest, false) => (d :: rest, false)
    | (rest, true) => if d = 9 then (0 :: rest, true) else ((d + 1) :: rest, false)

/-- Keep the first `n` digits and round the last of them up; a number that has no
    more digits stays as it is. -/
def roundUp (d : Digits) (n : Nat) : Digits :=
  if d.digits.length ≤ n then d
  else match increment (d.digits.take n) with
  | (ds, false) => ⟨(ds.reverse.dropWhile (· = 0)).reverse, d.point⟩
  | (_, true) => ⟨[1], d.point + 1⟩

/-- Keep the first `n` digits. -/
def roundDown (d : Digits) (n : Nat) : Digits :=
  ⟨((d.digits.take n).reverse.dropWhile (· = 0)).reverse, d.point⟩

/-- Keep the first `n` digits and round to the nearer neighbour, an exact half
    to the even digit. -/
def roundNear (d : Digits) (n : Nat) : Digits :=
  let next := digitAt d n
  let half := next = 5 ∧ n + 1 = d.digits.length
  let up := if half then (n ≠ 0 ∧ digitAt d (n - 1) % 2 = 1) else 5 ≤ next
  if d.digits.length ≤ n then d else if up then roundUp d n else roundDown d n

/-- The shortest digits for a number between its two half-way neighbours.  The
    digits are compared place by place with those of the neighbours, and cut at
    the first place where rounding down or up stays between them. -/
def shortenFrom (d lower upper : Digits) (inclusive : Bool) : Nat → Nat → Digits
  | 0, _ => d
  | fuel + 1, i =>
    let m := digitAt d i
    let l := digitAt lower i
    let u := digitAt upper i
    let okDown := l ≠ m ∨ (inclusive ∧ i + 1 = lower.digits.length)
    let okUp := m ≠ u ∧ (inclusive ∨ m + 1 < u ∨ i + 1 < upper.digits.length)
    if okDown ∧ okUp then roundNear d (i + 1)
    else if okDown then roundDown d (i + 1)
    else if okUp then roundUp d (i + 1)
    else shortenFrom d lower upper inclusive fuel (i + 1)

/-- The shortest digits of a positive number of a given precision. -/
def shortestDigits (bits coeff : Nat) (exp : Int) : Digits :=
  let d := exactDigits coeff exp
  -- One bit more than the precision, so that one is half a unit in the last place.
  let shift := bits + 1 - bitLength coeff
  let mant := coeff * Nat.pow 2 shift
  let lower := exactDigits (mant - 1) (exp - shift)
  let upper := exactDigits (mant + 1) (exp - shift)
  shortenFrom d lower upper (mant / 2 % 2 = 0) d.digits.length 0

/-- The text of a number, always positional. -/
def text : BigFloat → String
  | .inf n => if n then "-Inf" else "+Inf"
  | .finite n c e bits =>
    let magnitude := if c = 0 then ['0'] else (shortestDigits bits c e).positional
    String.ofList (if n then '-' :: magnitude else magnitude)

end BigFloat

end SeaOfNodes.Number
