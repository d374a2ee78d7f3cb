/-
  SeaOfNodes.Toml.Quoted

  Text between quotes.  Double quotes admit escapes and single quotes none; three
  quotes in a row admit line breaks.  Each reader starts behind the opening quotes
  and returns the text and what follows the closing ones.
-/
import SeaOfNodes.Text.Escape

namespace SeaOfNodes.Toml

open Text (codePoint?)

/-- Take something off the front of a text. -/
abbrev Reader (α : Type) := List Char → Option (α × List Char)

/-- A line break. -/
def isBreak (c : Char) : Bool := c == '\n' || c == '\r'

/-- What a backslash and the characters behind it stand for, and how many these
    are. -/
def escape? : List Char → Option (Char × Nat)
  | [] => none
  | c :: rest =>
    match c with
    | 'b' => some ('\x08', 1)
    | 't' => some ('\t', 1)
    | 'n' => some ('\n', 1)
    | 'f' => some ('\x0c', 1)
    | 'r' => some ('\r', 1)
    | 'e' => some ('\x1b', 1)
    | '"' => some ('"', 1)
    | '\\' => some ('\\', 1)
    | 'x' => (codePoint? 2 rest).map (·, 3)
    | 'u' => (codePoint? 4 rest).map (·, 5)
    | 'U' => (codePoint? 8 rest).map (·, 9)
    | _ => none

/-- Text up to a double quote on the same line. -/
def readBasic (cs : List Char) : Option (List Char × List Char) :=
  match cs with
  | [] => none
  | c :: rest =>
    if c = '"' then some ([], rest)
    else if c = '\\' then
      (escape? rest).bind fun (escaped, used) =>
        (readBasic (rest.drop used)).map fun (text, left) => (escaped :: text, left)
    else if isBreak c then none
    else (readBasic rest).map fun (text, left) => (c :: text, left)
termination_by cs.length
decreasing_by all_goals simp; try omega

/-- Text up to a single quote on the same line. -/
def readLiteral : List Char → Option (List Char × List Char)
  | [] => none
  | c :: rest =>
    if c = '\'' then some ([], rest)
    else if isBreak c then none
    else (readLiteral rest).map fun (text, left) => (c :: text, left)

/-- Take away a line break at the front. -/
def dropBreak : List Char → List Char
  | '\n' :: rest => rest
  | '\r' :: '\n' :: rest => rest
  | cs => cs

/-- Blanks and line breaks, which a backslash at the end of a line skips. -/
def isSpace (c : Char) : Bool := c == ' ' || c == '\t' || isBreak c

/-- What a run of `count` quotes means inside three quotes: up to two belong to
    the text, three to five close it, all but the last three still belonging to
    it, and more are refused. -/
inductive QuoteRun where
  | content (count : Nat)
  | closing (content : Nat)
  | tooMany

/-- The meaning of a run of quotes. -/
def QuoteRun.of (count : Nat) : QuoteRun :=
  if count < 3 then .content count
  else if count < 6 then .closing (count - 3)
  else .tooMany

/-- What is left behind a run of a character is shorter than the text. -/
theorem length_dropWhile_lt (q : Char) (rest : List Char) :
    (rest.dropWhile (· == q)).length < (q :: rest).length :=
  Nat.lt_succ_of_le (List.dropWhile_sublist _).length_le

/-- What is left behind blanks is no longer than the text. -/
theorem length_dropWhile_isSpace_lt (c : Char) (rest : List Char) :
    (rest.dropWhile isSpace).length < (c :: rest).length :=
  Nat.lt_succ_of_le (List.dropWhile_sublist _).length_le

/-- Text over several lines up to three quotes `q`.  With `escapes`, a backslash
    begins an escape, and one at the end of a line skips to the next character
    that is not blank. -/
def readLines (q : Char) (escapes : Bool) (cs : List Char) : Option (List Char × List Char) :=
  match cs with
  | [] => none
  | c :: rest =>
    if c = q then
      let count := (rest.takeWhile (· == q)).length + 1
      match QuoteRun.of count with
      | .content n =>
        (readLines q escapes (rest.dropWhile (· == q))).map fun (text, left) =>
          (List.replicate n q ++ text, left)
      | .closing n => some (List.replicate n q, rest.dropWhile (· == q))
      | .tooMany => none
    else if escapes && c == '\\' then
      if (rest.takeWhile isSpace).contains '\n' then readLines q escapes (rest.dropWhile isSpace)
      else
        (escape? rest).bind fun (escaped, used) =>
          (readLines q escapes (rest.drop used)).map fun (text, left) => (escaped :: text, left)
    else (readLines q escapes rest).map fun (text, left) => (c :: text, left)
termination_by cs.length
decreasing_by
  all_goals first
    | exact length_dropWhile_lt _ _
    | exact length_dropWhile_isSpace_lt _ _
    | (simp; try omega)

/-- A text, from its first quote. -/
def readText : Reader String
  | '"' :: '"' :: '"' :: rest =>
    (readLines '"' true (dropBreak rest)).map fun (text, left) => (String.ofList text, left)
  | '\'' :: '\'' :: '\'' :: rest =>
    (readLines '\'' false (dropBreak rest)).map fun (text, left) => (String.ofList text, left)
  | '"' :: rest => (readBasic rest).map fun (text, left) => (String.ofList text, left)
  | '\'' :: rest => (readLiteral rest).map fun (text, left) => (String.ofList text, left)
  | _ => none

/-- A text on one line, from its first quote. -/
def readLineText : Reader String
  | '"' :: rest => (readBasic rest).map fun (text, left) => (String.ofList text, left)
  | '\'' :: rest => (readLiteral rest).map fun (text, left) => (String.ofList text, left)
  | _ => none

end SeaOfNodes.Toml
