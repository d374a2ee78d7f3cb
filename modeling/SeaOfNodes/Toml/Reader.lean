/-
  SeaOfNodes.Toml.Reader

  From the text of a settings file to its statements.  A statement stands on a
  line of its own; inside brackets and braces, line breaks and comments may stand
  between any two parts, and a comma may follow the last item.
-/
import SeaOfNodes.Toml.Numeral

namespace SeaOfNodes.Toml

/-- A blank inside a line. -/
def isBlank (c : Char) : Bool := c == ' ' || c == '\t'

/-- Skip blanks inside a line. -/
def skipBlanks (cs : List Char) : List Char := cs.dropWhile isBlank

/-- Skip blanks, line breaks and comments; `inside` tells whether a comment is
    open. -/
def skipTrivia (inside : Bool) : List Char → List Char
  | [] => []
  | c :: rest =>
    if inside then skipTrivia (!isBreak c) rest
    else if isSpace c then skipTrivia false rest
    else if c = '#' then skipTrivia true rest
    else c :: rest

/-! ## Keys -/

/-- One part of a key: bare, or between quotes. -/
def readPart : Reader String := fun cs =>
  match cs with
  | '"' :: _ | '\'' :: _ => readLineText cs
  | _ =>
    match cs.span isBareChar with
    | ([], _) => none
    | (bare, rest) => some (String.ofList bare, rest)

/-- A key: parts with points and blanks between them, at most `fuel` many. -/
def readPath : (fuel : Nat) → Reader Path
  | 0, _ => none
  | fuel + 1, cs => do
    let (part, rest) ← readPart (skipBlanks cs)
    match skipBlanks rest with
    | '.' :: rest => do
      let (parts, rest) ← readPath fuel rest
      return (part :: parts, rest)
    | rest => return ([part], rest)

/-- A key and the equals sign behind it. -/
def readKey (fuel : Nat) : Reader Path := fun cs => do
  let (path, rest) ← readPath fuel cs
  match rest with
  | '=' :: rest => return (path, rest)
  | _ => none

/-! ## Values -/

/-- A word that is a value. -/
def readWord : Reader Value
  | 't' :: 'r' :: 'u' :: 'e' :: rest => some (.bool true, rest)
  | 'f' :: 'a' :: 'l' :: 's' :: 'e' :: rest => some (.bool false, rest)
  | 'i' :: 'n' :: 'f' :: rest => some (.float (.infinity false), rest)
  | 'n' :: 'a' :: 'n' :: rest => some (.float .nan, rest)
  | _ => none

/-- A value without parts. -/
def readScalar : Reader Value := fun cs =>
  match cs with
  | [] => none
  | c :: rest =>
    if c = '"' ∨ c = '\'' then (readText cs).map fun (text, rest) => (.text text, rest)
    else if c = '+' ∨ c = '-' then readSigned c rest
    else if Number.Decimal.isDigit c then readUnsigned cs
    else readWord cs

/-- Items up to the character that closes them, with commas between them; `fuel`
    bounds their number. -/
def readItems {α : Type} (read : Reader α) (closing : Char) : (fuel : Nat) → Reader (List α)
  | 0, _ => none
  | fuel + 1, cs => do
    match skipTrivia false cs with
    | [] => none
    | c :: rest =>
      if c = closing then return ([], rest)
      else
        let (item, rest) ← read (c :: rest)
        match skipTrivia false rest with
        | ',' :: rest => do
          let (items, rest) ← readItems read closing fuel rest
          return (item :: items, rest)
        | c :: rest => if c = closing then return ([item], rest) else none
        | [] => none

/-- An entry of a table between braces. -/
def readEntry (value : Reader Value) : Reader (Path × Value) := fun cs => do
  let (path, rest) ← readKey cs.length cs
  let (v, rest) ← value rest
  return ((path, v), rest)

/-- A value; `depth` bounds how deep arrays and tables are nested. -/
def readValue : (depth : Nat) → Reader Value
  | 0, _ => none
  | depth + 1, cs =>
    match skipBlanks cs with
    | '[' :: rest =>
      (readItems (readValue depth) ']' (rest.length + 1) rest).map fun (items, rest) =>
        (.array items, rest)
    | '\x7b' :: rest =>
      (readItems (readEntry (readValue depth)) '\x7d' (rest.length + 1) rest).map
        fun (entries, rest) => (.table entries, rest)
    | cs => readScalar cs

/-! ## Statements -/

/-- The end of a statement: nothing but blanks and a comment up to the end of the
    line. -/
def endStatement (cs : List Char) : Option (List Char) :=
  match skipBlanks cs with
  | [] => some []
  | c :: rest => if c = '#' ∨ isBreak c then some (c :: rest) else none

/-- One statement, from its first character. -/
def readStatement : Reader Statement := fun cs =>
  match cs with
  | '[' :: '[' :: rest => do
    let (path, rest) ← readPath rest.length rest
    match rest with
    | ']' :: ']' :: rest => return (.element path, rest)
    | _ => none
  | '[' :: rest => do
    let (path, rest) ← readPath rest.length rest
    match rest with
    | ']' :: rest => return (.table path, rest)
    | _ => none
  | cs => do
    let (path, rest) ← readKey cs.length cs
    let (value, rest) ← readValue (rest.length + 1) rest
    return (.assign path value, rest)

/-- The statements of a text; `fuel` bounds their number. -/
def readStatements : (fuel : Nat) → List Char → Option (List Statement)
  | 0, _ => none
  | fuel + 1, cs => do
    match skipTrivia false cs with
    | [] => return []
    | cs =>
      let (statement, rest) ← readStatement cs
      let rest ← endStatement rest
      return statement :: (← readStatements fuel rest)

/-- The mark that some editors put at the front of a file. -/
def byteOrderMark : Char := '\ufeff'

/-- Control characters that may stand nowhere in a file. -/
def isControl (c : Char) : Bool :=
  (c.toNat < 0x20 && c != '\t' && c != '\n') || c.toNat == 0x7f

/-- Whether a text has no control characters but tabs and the ends of lines. -/
def isClean : List Char → Bool
  | [] => true
  | '\r' :: '\n' :: rest => isClean rest
  | c :: rest => !isControl c && isClean rest

/-- The statements of a file. -/
def parse? (text : String) : Option (List Statement) :=
  let cs := text.toList
  let cs := if cs.head? = some byteOrderMark then cs.drop 1 else cs
  if isClean cs then readStatements (cs.length + 1) cs else none

end SeaOfNodes.Toml
