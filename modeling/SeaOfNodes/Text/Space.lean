/-
  SeaOfNodes.Text.Space

  White space in the wide sense: blanks, tabs and line ends, and the blanks of
  all widths that other scripts use.
-/

namespace SeaOfNodes.Text

/-- Whether a character is white space. -/
def isSpace (c : Char) : Bool :=
  let n := c.toNat
  (0x09 ≤ n && n ≤ 0x0d) || n == 0x20 || n == 0x85 || n == 0xa0 || n == 0x1680
    || (0x2000 ≤ n && n ≤ 0x200a) || n == 0x2028 || n == 0x2029 || n == 0x202f || n == 0x205f
    || n == 0x3000

/-- Take white space off the front. -/
def trimStart (cs : List Char) : List Char := cs.dropWhile isSpace

/-- Take white space off the end. -/
def trimEnd (cs : List Char) : List Char := (cs.reverse.dropWhile isSpace).reverse

/-- Take white space off both ends. -/
def trim (cs : List Char) : List Char := trimEnd (trimStart cs)

end SeaOfNodes.Text
