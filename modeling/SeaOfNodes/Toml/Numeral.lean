/-
  SeaOfNodes.Toml.Numeral

  Numbers, dates and times.  What kind of value a run of characters is follows
  from its first characters; whether it is a good one is checked on the whole
  run: an underscore stands between digits, no number begins with a needless
  zero, a point is followed by a digit, and dates and times exist.
-/
import SeaOfNodes.Number.Decimal
import SeaOfNodes.Number.Integer
import SeaOfNodes.Toml.Quoted
import SeaOfNodes.Toml.Syntax

namespace SeaOfNodes.Toml

open Number (underscoresFit)
open Number.Decimal (isDigit readDigits)
open Text (hexDigitValue?)

/-! ## Integers -/

/-- Whether a numeral with an optional sign begins with a needless zero. -/
def hasLeadingZero : List Char → Bool
  | '+' :: '0' :: _ :: _ => true
  | '-' :: '0' :: _ :: _ => true
  | '0' :: _ :: _ => true
  | _ => false

/-- An integer that fits 64 bits. -/
def fitInt? (n : Int) : Option Value := (Number.toWord? n).map .int

/-- A decimal integer with an optional sign. -/
def decimalInt? (written : List Char) : Option Value :=
  if !underscoresFit false written || hasLeadingZero written then none
  else
    let (negative, digits) := Number.Decimal.readSign (written.filter (· != '_'))
    let n : Int := readDigits digits
    fitInt? (if negative then -n else n)

/-- An integer of another base, without the mark of the base. -/
def basedInt? (base : Nat) (digits : List Char) : Option Value :=
  if !underscoresFit false digits then none
  else
    ((digits.filter (· != '_')).foldlM
      (fun n c => (hexDigitValue? c).map fun d => n * base + d) 0).bind fun n => fitInt? (Int.ofNat n)

/-- The digits of a base. -/
def isBaseDigit (base : Nat) (c : Char) : Bool :=
  match hexDigitValue? c with
  | some d => d < base
  | none => false

/-- An integer of another base, behind the mark of the base. -/
def readBased (base : Nat) (cs : List Char) : Option (Value × List Char) :=
  let (digits, rest) := cs.span fun c => isBaseDigit base c || c == '_'
  match digits with
  | [] => none
  | _ => (basedInt? base digits).map (·, rest)

/-! ## Floats -/

/-- Whether a point, wherever it stands, is followed by a digit. -/
def pointsFit : List Char → Bool
  | [] => true
  | ['.'] => false
  | '.' :: c :: rest => isDigit c && pointsFit (c :: rest)
  | _ :: rest => pointsFit rest

/-- The parts of a float between the points and the marks of exponents, empty
    ones left out. -/
def floatParts (written : List Char) : List (List Char) :=
  (written.splitOnP fun c => c == '.' || c == 'e' || c == 'E').filter (!·.isEmpty)

/-- A float with an optional sign. -/
def float? (written : List Char) : Option Value :=
  let parts := floatParts written
  if !parts.all (underscoresFit false) || (parts.head?.map hasLeadingZero).getD false
      || !pointsFit written then none
  else do
    let numeral ← Number.Decimal.parse? (String.ofList (written.filter (· != '_')))
    return .float (← numeral.toDouble?)

/-- Characters that may follow the beginning of a float. -/
def isFloatChar (c : Char) : Bool :=
  isDigit c || c == '_' || c == '.' || c == '-' || c == '+' || c == 'e' || c == 'E'

/-! ## Dates and times -/

/-- Characters of dates and times. -/
def isMomentChar (c : Char) : Bool :=
  isDigit c || c == '-' || c == ':' || c == 'T' || c == 't' || c == ' ' || c == '.' || c == 'Z'
    || c == 'z' || c == '+'

/-- A number of exactly `width` digits. -/
def readFixed (width : Nat) : Reader Nat := fun cs =>
  let digits := cs.take width
  if digits.length = width ∧ digits.all isDigit then some (readDigits digits, cs.drop width)
  else none

/-- One given character. -/
def readChar (c : Char) : Reader Unit
  | d :: rest => if d = c then some ((), rest) else none
  | [] => none

/-- The number of days of a month. -/
def daysIn (year month : Nat) : Nat :=
  let leap := year % 4 = 0 ∧ (year % 100 ≠ 0 ∨ year % 400 = 0)
  if month = 2 then (if leap then 29 else 28)
  else if month = 4 ∨ month = 6 ∨ month = 9 ∨ month = 11 then 30
  else 31

/-- A date that exists, as `2006-01-02`. -/
def readDate : Reader Unit := fun cs => do
  let (year, cs) ← readFixed 4 cs
  let (_, cs) ← readChar '-' cs
  let (month, cs) ← readFixed 2 cs
  let (_, cs) ← readChar '-' cs
  let (day, cs) ← readFixed 2 cs
  if 1 ≤ month ∧ month ≤ 12 ∧ 1 ≤ day ∧ day ≤ daysIn year month then some ((), cs) else none

/-- Seconds, with or without a fraction, if a colon follows. -/
def readSeconds : Reader Unit
  | ':' :: cs => do
    let (second, cs) ← readFixed 2 cs
    if 60 ≤ second then none
    else
      match cs with
      | '.' :: c :: rest =>
        if isDigit c then some ((), rest.dropWhile isDigit) else none
      | cs => some ((), cs)
  | cs => some ((), cs)

/-- A time of day that exists, as `15:04`, `15:04:05` or `15:04:05.67`. -/
def readClock : Reader Unit := fun cs => do
  let (hour, cs) ← readFixed 2 cs
  let (_, cs) ← readChar ':' cs
  let (minute, cs) ← readFixed 2 cs
  if hour < 24 ∧ minute < 60 then readSeconds cs else none

/-- An offset from universal time, if one follows. -/
def readOffset : Reader Unit
  | [] => some ((), [])
  | 'Z' :: cs => some ((), cs)
  | sign :: cs =>
    if sign = '+' ∨ sign = '-' then do
      let (hour, cs) ← readFixed 2 cs
      let (_, cs) ← readChar ':' cs
      let (minute, cs) ← readFixed 2 cs
      if hour ≤ 24 ∧ minute ≤ 60 then some ((), cs) else none
    else none

/-- A letter or blank of a date and time in its usual spelling. -/
def usualMark (c : Char) : Char :=
  if c = 'z' then 'Z' else if c = 't' ∨ c = ' ' then 'T' else c

/-- Whether characters are a date, a time of day, or both, with or without an
    offset. -/
def isMoment (written : List Char) : Bool :=
  let cs := written.map usualMark
  let clockOnly := match readClock cs with
    | some (_, []) => true
    | _ => false
  let withDate := match readDate cs with
    | some (_, []) => true
    | some (_, 'T' :: rest) =>
      match (readClock rest).bind fun (_, rest) => readOffset rest with
      | some (_, []) => true
      | _ => false
    | _ => false
  clockOnly || withDate

/-- Take blanks away from the end. -/
def trimEnd (cs : List Char) : List Char := (cs.reverse.dropWhile (· == ' ')).reverse

/-- A date or a time. -/
def readMoment : Reader Value := fun cs =>
  let written := trimEnd (cs.takeWhile isMomentChar)
  if isMoment written then some (.moment (String.ofList written), cs.dropWhile isMomentChar)
  else none

/-! ## All of them -/

/-- A decimal number: digits and underscores, then a float if a point or the mark
    of an exponent follows, else an integer. -/
def readDecimal (sign : List Char) (cs : List Char) : Option (Value × List Char) :=
  let (lead, rest) := cs.span fun c => isDigit c || c == '_'
  match rest with
  | mark :: _ =>
    if mark = '.' ∨ mark = 'e' ∨ mark = 'E' then
      let (tail, rest) := rest.span isFloatChar
      (float? (sign ++ lead ++ tail)).map (·, rest)
    else (decimalInt? (sign ++ lead)).map (·, rest)
  | [] => (decimalInt? (sign ++ lead)).map (·, rest)

/-- A number with a sign: decimal, or one of the two special floats. -/
def readSigned (sign : Char) : Reader Value
  | 'i' :: 'n' :: 'f' :: rest => some (.float (.infinity (sign = '-')), rest)
  | 'n' :: 'a' :: 'n' :: rest => some (.float .nan, rest)
  | cs =>
    match cs with
    | c :: _ => if isDigit c then readDecimal [sign] cs else none
    | [] => none

/-- A number, a date or a time that begins with a digit. -/
def readUnsigned : Reader Value
  | '0' :: 'x' :: rest => readBased 16 rest
  | '0' :: 'o' :: rest => readBased 8 rest
  | '0' :: 'b' :: rest => readBased 2 rest
  | cs =>
    match cs.dropWhile isDigit with
    | '-' :: _ | ':' :: _ => readMoment cs
    | _ => readDecimal [] cs

end SeaOfNodes.Toml
