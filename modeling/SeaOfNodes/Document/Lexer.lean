/-
  SeaOfNodes.Document.Lexer

  From text to tokens.  Code, quoted text and heredocs have rules of their own
  and may be nested: a sequence in a template is code again, up to the brace that
  closes it.  A character that no rule allows makes the whole text unreadable.
-/
import SeaOfNodes.Document.Token
import SeaOfNodes.Text.Escape
import SeaOfNodes.Text.Identifier
import SeaOfNodes.Text.Space

namespace SeaOfNodes.Document

/-- What surrounds the place being read, innermost first; outside of everything
    is code. -/
inductive Mode where
  /-- Code in a sequence of a template, with so many braces open. -/
  | sequence (braces : Nat)
  | quoted
  /-- A heredoc that ends with a line of `marker`; `fresh` tells whether a line
      begins here. -/
  | heredoc (marker : List Char) (fresh : Bool)
deriving DecidableEq

/-- What one step reads: tokens, the modes after it, and the text left. -/
structure Step where
  tokens : List Token
  modes : List Mode
  rest : List Char

/-- A digit. -/
def isDigit (c : Char) : Bool := '0' ≤ c && c ≤ '9'

/-- Whether a character may begin a name. -/
def isNameStart (c : Char) : Bool := c == '_' || Text.isIdentifierStart c

/-- Whether a character may continue a name. -/
def isNameContinue (c : Char) : Bool := c == '-' || Text.isIdentifierContinue c

/-! ## Numbers and comments -/

/-- Characters of a number: digits, points, and the marks of exponents that a
    digit follows. -/
def takeNumber : List Char → List Char
  | [] => []
  | c :: rest =>
    if isDigit c || c == '.' then c :: takeNumber rest
    else if c == 'e' || c == 'E' then
      match rest with
      | d :: more =>
        if isDigit d then c :: d :: takeNumber more
        else if d == '+' || d == '-' then
          match more with
          | e :: _ => if isDigit e then c :: d :: takeNumber more else []
          | [] => []
        else []
      | [] => []
    else []

/-- A number, from its first digit.  It does not end with a point. -/
def readNumber (cs : List Char) : List Char :=
  ((takeNumber cs).reverse.dropWhile (· == '.')).reverse

/-- What follows the end of a comment between `/*` and `*/`. -/
def skipComment : List Char → Option (List Char)
  | '*' :: '/' :: rest => some rest
  | _ :: rest => skipComment rest
  | [] => none

/-- A comment up to the end of its line, which it takes with it. -/
def lineComment (modes : List Mode) (cs : List Char) : Step :=
  match cs.dropWhile (· != '\n') with
  | [] => ⟨[], modes, []⟩
  | _ :: rest => ⟨[.newline], modes, rest⟩

/-! ## Heredocs -/

/-- Take a line break off the front. -/
def readBreak : List Char → Option (List Char)
  | '\n' :: rest => some rest
  | '\r' :: '\n' :: rest => some rest
  | _ => none

/-- The beginning of a heredoc behind its two angle brackets: whether it is
    flush, its marker, and what follows the line. -/
def heredocStart (cs : List Char) : Option (Bool × List Char × List Char) :=
  let (flush, cs) :=
    match cs with
    | '-' :: rest => (true, rest)
    | _ => (false, cs)
  match cs with
  | c :: rest =>
    if isNameStart c then
      (readBreak (rest.dropWhile isNameContinue)).map fun left =>
        (flush, c :: rest.takeWhile isNameContinue, left)
    else none
  | [] => none

/-- Text of a heredoc up to the end of the line or a sequence.  A doubled dollar
    or percent sign in front of a brace stands for one. -/
def heredocText : List Char → List Char × List Char
  | [] => ([], [])
  | '$' :: '$' :: '\x7b' :: rest =>
    let (text, left) := heredocText rest
    ('$' :: '\x7b' :: text, left)
  | '%' :: '%' :: '\x7b' :: rest =>
    let (text, left) := heredocText rest
    ('%' :: '\x7b' :: text, left)
  | '$' :: '\x7b' :: rest => ([], '$' :: '\x7b' :: rest)
  | '%' :: '\x7b' :: rest => ([], '%' :: '\x7b' :: rest)
  | c :: rest =>
    if c = '\n' ∨ c = '\r' then ([], c :: rest)
    else
      let (text, left) := heredocText rest
      (c :: text, left)

/-! ## Quoted text -/

/-- What a backslash and the characters behind it stand for, and how many these
    are. -/
def escape? : List Char → Option (Char × Nat)
  | [] => none
  | c :: rest =>
    match c with
    | 'n' => some ('\n', 1)
    | 'r' => some ('\r', 1)
    | 't' => some ('\t', 1)
    | '"' => some ('"', 1)
    | '\\' => some ('\\', 1)
    | 'u' => (Text.codePoint? 4 rest).map (·, 5)
    | 'U' => (Text.codePoint? 8 rest).map (·, 9)
    | _ => none

/-- Text between quotes up to the closing quote or a sequence. -/
def quotedText (cs : List Char) : Option (List Char × List Char) :=
  match cs with
  | [] => some ([], [])
  | '$' :: '$' :: '\x7b' :: rest =>
    (quotedText rest).map fun (text, left) => ('$' :: '\x7b' :: text, left)
  | '%' :: '%' :: '\x7b' :: rest =>
    (quotedText rest).map fun (text, left) => ('%' :: '\x7b' :: text, left)
  | '$' :: '\x7b' :: rest => some ([], '$' :: '\x7b' :: rest)
  | '%' :: '\x7b' :: rest => some ([], '%' :: '\x7b' :: rest)
  | c :: rest =>
    if c = '"' then some ([], c :: rest)
    else if c = '\\' then
      (escape? rest).bind fun (escaped, used) =>
        (quotedText (rest.drop used)).map fun (text, left) => (escaped :: text, left)
    else if c = '\n' ∨ c = '\r' then none
    else (quotedText rest).map fun (text, left) => (c :: text, left)
termination_by cs.length
decreasing_by all_goals simp; try omega

/-! ## Steps -/

/-- The beginning of a sequence in a template, if one begins here. -/
def openSequence (modes : List Mode) : List Char → Option Step
  | '$' :: '\x7b' :: '~' :: rest => some ⟨[.openValue true], .sequence 0 :: modes, rest⟩
  | '$' :: '\x7b' :: rest => some ⟨[.openValue false], .sequence 0 :: modes, rest⟩
  | '%' :: '\x7b' :: '~' :: rest => some ⟨[.openDirective true], .sequence 0 :: modes, rest⟩
  | '%' :: '\x7b' :: rest => some ⟨[.openDirective false], .sequence 0 :: modes, rest⟩
  | _ => none

/-- A step in quoted text. -/
def quotedStep (outer : List Mode) (cs : List Char) : Option Step :=
  match cs with
  | '"' :: rest => some ⟨[.closeQuote], outer, rest⟩
  | _ =>
    match openSequence (.quoted :: outer) cs with
    | some step => some step
    | none => (quotedText cs).map fun (text, rest) => ⟨[.text text], .quoted :: outer, rest⟩

/-- A step in a heredoc.  A line that is the marker and white space closes it. -/
def heredocStep (marker : List Char) (fresh : Bool) (outer : List Mode) (cs : List Char) :
    Option Step :=
  match openSequence (.heredoc marker false :: outer) cs with
  | some step => some step
  | none =>
    let (text, rest) := heredocText cs
    match rest with
    | [] => some ⟨[.text text], .heredoc marker false :: outer, []⟩
    | '\n' :: rest =>
      if fresh && Text.trim text == marker then some ⟨[.closeHeredoc, .newline], outer, rest⟩
      else some ⟨[.text (text ++ ['\n'])], .heredoc marker true :: outer, rest⟩
    | '\r' :: '\n' :: rest =>
      if fresh && Text.trim text == marker then some ⟨[.closeHeredoc, .newline], outer, rest⟩
      else some ⟨[.text (text ++ ['\r', '\n'])], .heredoc marker true :: outer, rest⟩
    | '\r' :: _ => none
    | rest => some ⟨[.text text], .heredoc marker false :: outer, rest⟩

/-- The mark at the front, the longest one if several fit. -/
def readMark : List Char → Option (Mark × List Char)
  | '.' :: '.' :: '.' :: rest => some (.ellipsis, rest)
  | '=' :: '=' :: rest => some (.equal, rest)
  | '=' :: '>' :: rest => some (.arrow, rest)
  | '!' :: '=' :: rest => some (.notEqual, rest)
  | '<' :: '=' :: rest => some (.lessEqual, rest)
  | '>' :: '=' :: rest => some (.greaterEqual, rest)
  | '&' :: '&' :: rest => some (.both, rest)
  | '|' :: '|' :: rest => some (.either, rest)
  | ':' :: ':' :: rest => some (.doubleColon, rest)
  | c :: rest =>
    match c with
    | '[' => some (.openBracket, rest)
    | ']' => some (.closeBracket, rest)
    | '(' => some (.openParen, rest)
    | ')' => some (.closeParen, rest)
    | '.' => some (.dot, rest)
    | ',' => some (.comma, rest)
    | '*' => some (.star, rest)
    | '/' => some (.slash, rest)
    | '%' => some (.percent, rest)
    | '+' => some (.plus, rest)
    | '-' => some (.minus, rest)
    | '=' => some (.assign, rest)
    | '<' => some (.less, rest)
    | '>' => some (.greater, rest)
    | '!' => some (.bang, rest)
    | '?' => some (.question, rest)
    | ':' => some (.colon, rest)
    | _ => none
  | [] => none

/-- A mark without a rule of its own. -/
def markStep (modes : List Mode) (cs : List Char) : Option Step :=
  (readMark cs).map fun (m, rest) => ⟨[.mark m], modes, rest⟩

/-- The modes inside a brace that opens in code. -/
def enterBrace : List Mode → List Mode
  | .sequence braces :: outer => .sequence (braces + 1) :: outer
  | modes => modes

/-- A closing brace: of a sequence, if none is open in it. -/
def closeStep (modes : List Mode) (rest : List Char) : Step :=
  match modes with
  | .sequence 0 :: outer => ⟨[.closeSequence false], outer, rest⟩
  | .sequence (braces + 1) :: outer => ⟨[.mark .closeBrace], .sequence braces :: outer, rest⟩
  | modes => ⟨[.mark .closeBrace], modes, rest⟩

/-- A step in code. -/
def codeStep (modes : List Mode) (cs : List Char) : Option Step :=
  match cs with
  | [] => some ⟨[], modes, []⟩
  | '\r' :: '\n' :: rest => some ⟨[.newline], modes, rest⟩
  | '/' :: '/' :: rest => some (lineComment modes rest)
  | '/' :: '*' :: rest =>
    match skipComment rest with
    | some rest => some ⟨[], modes, rest⟩
    | none => markStep modes cs
  | '<' :: '<' :: rest =>
    match heredocStart rest with
    | some (flush, marker, rest) =>
      some ⟨[.openHeredoc flush], .heredoc marker true :: modes, rest⟩
    | none => markStep modes cs
  | '~' :: '\x7d' :: rest =>
    match modes with
    | .sequence 0 :: outer => some ⟨[.closeSequence true], outer, rest⟩
    | _ => none
  | c :: rest =>
    if c = ' ' ∨ c = '\t' then some ⟨[], modes, rest⟩
    else if c = '\n' then some ⟨[.newline], modes, rest⟩
    else if c = '#' then some (lineComment modes rest)
    else if c = '"' then some ⟨[.openQuote], .quoted :: modes, rest⟩
    else if c = '\x7b' then some ⟨[.mark .openBrace], enterBrace modes, rest⟩
    else if c = '\x7d' then some (closeStep modes rest)
    else if isDigit c then
      let written := readNumber cs
      some ⟨[.number (String.ofList written)], modes, cs.drop written.length⟩
    else if isNameStart c then
      some ⟨[.name (String.ofList (c :: rest.takeWhile isNameContinue))], modes,
        rest.dropWhile isNameContinue⟩
    else markStep modes cs

/-- One step in whatever mode is innermost. -/
def readStep (modes : List Mode) (cs : List Char) : Option Step :=
  match modes with
  | .quoted :: outer => quotedStep outer cs
  | .heredoc marker fresh :: outer => heredocStep marker fresh outer cs
  | _ => codeStep modes cs

/-- Read tokens to the end of the text, in at most `fuel` steps. -/
def readTokens : (fuel : Nat) → List Mode → List Char → Option (List Token)
  | _, _, [] => some []
  | 0, _, _ :: _ => none
  | fuel + 1, modes, cs => do
    let step ← readStep modes cs
    return step.tokens ++ (← readTokens fuel step.modes step.rest)

/-- The tokens of a text, a mark of byte order at its front left out.  Every step
    reads at least one character. -/
def tokens? (text : String) : Option (List Token) :=
  let cs := text.toList
  let cs := if cs.head? = some '\ufeff' then cs.drop 1 else cs
  readTokens cs.length [] cs

end SeaOfNodes.Document
