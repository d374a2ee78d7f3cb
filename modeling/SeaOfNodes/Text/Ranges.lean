/-
  SeaOfNodes.Text.Ranges

  Sets of characters given as a table of code point ranges.  A table is
  written as hexadecimal numbers and pairs `low-high`, separated by blanks and
  line ends, in ascending order; a character belongs to the set when its code
  point lies in one of the ranges.
-/

namespace SeaOfNodes.Text

/-- The value of a lower-case hexadecimal digit; every other character counts
    as zero. -/
def hexValue (c : Char) : Nat :=
  if '0' ≤ c ∧ c ≤ '9' then c.toNat - '0'.toNat
  else if 'a' ≤ c ∧ c ≤ 'f' then c.toNat - 'a'.toNat + 10
  else 0

/-- Read a hexadecimal number, most significant digit first. -/
def readHex (digits : List Char) : Nat :=
  digits.foldl (fun n c => n * 16 + hexValue c) 0

/-- A closed range of code points. -/
structure Range where
  low : Nat
  high : Nat
deriving DecidableEq

/-- A set of characters, as ranges of code points. -/
abbrev Ranges := List Range

/-- Read one entry of a table: a code point, or the two ends of a range. -/
def Range.ofText (entry : List Char) : Range :=
  match entry.span (· ≠ '-') with
  | (low, []) => ⟨readHex low, readHex low⟩
  | (low, _ :: high) => ⟨readHex low, readHex high⟩

/-- Cut a text into its words, the longest stretches without blanks and line
    ends. -/
def words : List Char → List (List Char)
  | [] => []
  | c :: rest =>
    if c = ' ' ∨ c = '\n' then words rest
    else
      match rest, words rest with
      | [], _ => [[c]]
      | d :: _, ws =>
        if d = ' ' ∨ d = '\n' then [c] :: ws
        else
          match ws with
          | [] => [[c]]
          | w :: ws => (c :: w) :: ws

/-- Read a table of ranges. -/
def Ranges.ofTable (table : String) : Ranges :=
  (words table.toList).map Range.ofText

/-- Whether the set holds a character. -/
def Ranges.contains (ranges : Ranges) (c : Char) : Bool :=
  ranges.any fun r => r.low ≤ c.toNat && c.toNat ≤ r.high

end SeaOfNodes.Text
