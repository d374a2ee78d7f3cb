/-
  SeaOfNodes.Text.Escape

  Code points written in hexadecimal digits of either case.
-/

namespace SeaOfNodes.Text

/-- The value of a hexadecimal digit. -/
def hexDigitValue? (c : Char) : Option Nat :=
  if '0' ≤ c ∧ c ≤ '9' then some (c.toNat - '0'.toNat)
  else if 'a' ≤ c ∧ c ≤ 'f' then some (c.toNat - 'a'.toNat + 10)
  else if 'A' ≤ c ∧ c ≤ 'F' then some (c.toNat - 'A'.toNat + 10)
  else none

/-- The number that hexadecimal digits write. -/
def hexNumber? (digits : List Char) : Option Nat :=
  digits.foldlM (fun n c => (hexDigitValue? c).map (n * 16 + ·)) 0

/-- The character whose code point is written by the first `width` characters. -/
def codePoint? (width : Nat) (cs : List Char) : Option Char := do
  if cs.length < width then none
  else
    let n ← hexNumber? (cs.take width)
    if h : n.isValidChar then some (Char.ofNatAux n h) else none

end SeaOfNodes.Text
