/-
  SeaOfNodes.Text.Normalize

  The composed normal form of a text.  Characters are replaced by the sequences
  they stand for, marks after a base are put in the order of their classes, and
  each base is composed with the marks that follow it unblocked.  Syllables of
  Hangul are composed and taken apart by arithmetic.  A run of marks that is too
  long is broken up by a joiner, so that only so many have to be kept in mind.
-/
import SeaOfNodes.Text.Composition

namespace SeaOfNodes.Text

/-! ## Hangul -/

/-- The first syllable. -/
def hangulBase : Nat := 0xac00

/-- The number of syllables. -/
def hangulCount : Nat := 11172

/-- The letters of a syllable: a leading consonant, a vowel and, unless it is
    absent, a trailing consonant. -/
def hangulParts (c : Nat) : List Nat :=
  let s := c - hangulBase
  let lead := 0x1100 + s / 588
  let vowel := 0x1161 + s % 588 / 28
  let trail := 0x11a7 + s % 28
  if s % 28 = 0 then [lead, vowel] else [lead, vowel, trail]

/-- The syllable of a consonant and a vowel, or of an open syllable and a
    trailing consonant. -/
def hangulCompose? (a b : Nat) : Option Nat :=
  if 0x1100 ≤ a ∧ a < 0x1113 ∧ 0x1161 ≤ b ∧ b < 0x1176 then
    some (hangulBase + ((a - 0x1100) * 21 + (b - 0x1161)) * 28)
  else if hangulBase ≤ a ∧ a < hangulBase + hangulCount ∧ (a - hangulBase) % 28 = 0
      ∧ 0x11a7 < b ∧ b < 0x11c3 then
    some (a + (b - 0x11a7))
  else none

/-! ## Decomposition -/

/-- The sequence a character stands for, taken apart at most `depth` times. -/
def decomposeChar : (depth : Nat) → Nat → List Nat
  | 0, c => [c]
  | depth + 1, c =>
    if hangulBase ≤ c ∧ c < hangulBase + hangulCount then hangulParts c
    else if c < 0xc0 then [c]
    else
      match composites.find? fun x => x.code == c with
      | none => [c]
      | some x => x.parts.flatMap (decomposeChar depth)

/-- A character with its combining class. -/
abbrev Classed := Nat × Nat

/-- How many marks may follow one another. -/
def markLimit : Nat := 30

/-- The joiner that breaks up a longer run of marks: a base that composes with
    nothing. -/
def joiner : Classed := (0x34f, 0)

/-- Join the sequences that characters stand for.  `count` is the number of marks
    at the end of what came before. -/
def joinSequences (count : Nat) : List (List Classed) → List Classed
  | [] => []
  | part :: rest =>
    let leading := (part.takeWhile (·.2 ≠ 0)).length
    let trailing := (part.reverse.takeWhile (·.2 ≠ 0)).length
    if leading = 0 then part ++ joinSequences trailing rest
    else if markLimit < count + leading then joiner :: part ++ joinSequences leading rest
    else part ++ joinSequences (count + leading) rest

/-- Insert a mark into a list kept with the last one first: it moves past marks
    of a higher class. -/
def insertMark (m : Classed) : List Classed → List Classed
  | [] => [m]
  | x :: rest => if m.2 < x.2 then x :: insertMark m rest else m :: x :: rest

/-- Put the marks after each base in the order of their classes.  `marks` holds
    the marks since the last base, the last one first. -/
def orderMarks (marks : List Classed) : List Classed → List Classed
  | [] => marks.reverse
  | c :: rest =>
    if c.2 = 0 then marks.reverse ++ c :: orderMarks [] rest
    else orderMarks (insertMark c marks) rest

/-- A sequence with its marks in order. -/
def reorder (cs : List Classed) : List Classed := orderMarks [] cs

/-! ## Composition -/

/-- The character that stands for a base and what follows it. -/
def composePair? (a b : Nat) : Option Nat :=
  (hangulCompose? a b).or
    ((composites.find? fun x => x.restored && x.parts == [a, b]).map Composite.code)

/-- Compose a base with what follows.  `marks` holds what was left uncomposed
    since the base, the last one first. -/
def composeFrom (base : Nat) (marks : List Classed) : List Classed → List Nat
  | [] => base :: (marks.reverse.map Prod.fst)
  | c :: rest =>
    let blocked :=
      match marks with
      | [] => false
      | m :: _ => c.2 ≤ m.2
    match if blocked then none else composePair? base c.1 with
    | some composed => composeFrom composed marks rest
    | none =>
      if c.2 = 0 then base :: (marks.reverse.map Prod.fst) ++ composeFrom c.1 [] rest
      else composeFrom base (c :: marks) rest

/-- Compose a sequence; marks before the first base stay as they are. -/
def compose : List Classed → List Nat
  | [] => []
  | c :: rest => if c.2 = 0 then composeFrom c.1 [] rest else c.1 :: compose rest

/-- The composed normal form of a text.  A text of characters below the first
    combining mark is its own. -/
def normalize (s : String) : String :=
  if s.toList.all fun c => c.toNat < 0x300 then s
  else
    let sequences := s.toList.map fun c =>
      (decomposeChar 5 c.toNat).map fun d => (d, combiningClass d)
    String.ofList ((compose (reorder (joinSequences 0 sequences))).map Char.ofNat)

end SeaOfNodes.Text
