/-
  SeaOfNodes.Document.Parser

  From tokens to the body of a file.  An attribute and a block end with their
  line; inside parentheses, brackets and template sequences line ends count for
  nothing, while in the braces of an object they separate entries.  Each function
  takes `fuel` for the depth of its calls, of which every token allows a fixed
  number.
-/
import SeaOfNodes.Document.Template
import SeaOfNodes.Document.Token

namespace SeaOfNodes.Document

open Description (Value)

/-- Take something off the front of a list of tokens. -/
abbrev Parse (α : Type) := List Token → Option (α × List Token)

/-- The tokens from the next that counts: with `lines`, line ends count too. -/
def ahead (lines : Bool) (ts : List Token) : List Token :=
  if lines then ts else ts.dropWhile (· = .newline)

/-- Take one given mark. -/
def expect (lines : Bool) (m : Mark) (ts : List Token) : Option (List Token) :=
  match ahead lines ts with
  | t :: rest => if t = .mark m then some rest else none
  | [] => none

/-- Take one given word. -/
def expectWord (lines : Bool) (word : String) (ts : List Token) : Option (List Token) :=
  match ahead lines ts with
  | t :: rest => if t = .name word then some rest else none
  | [] => none

/-- Take a name. -/
def parseName (lines : Bool) : Parse String := fun ts =>
  match ahead lines ts with
  | .name name :: rest => some (name, rest)
  | _ => none

/-- The value of a number. -/
def numberExpr (written : String) : Option Expr :=
  (Number.BigFloat.parse? written).map fun n => .literal (.number n)

/-- The value of a number that stands for an index behind a point; it has no point
    of its own. -/
def positionExpr (written : String) : Option Expr :=
  if written.toList.contains '.' then none else numberExpr written

/-- A word that is no call: a constant or a variable. -/
def wordExpr (name : String) : Expr :=
  if name = "true" then .literal (.bool true)
  else if name = "false" then .literal (.bool false)
  else if name = "null" then .literal (.null .dynamic)
  else .variable name

/-- How many levels of operators there are. -/
def levels : Nat := 6

/-- The operator of a level that a mark stands for; the operators of a higher
    level bind more tightly. -/
def operatorAt? (level : Nat) (m : Mark) : Option BinaryOp :=
  match level, m with
  | 0, .either => some .or
  | 1, .both => some .and
  | 2, .equal => some .equal
  | 2, .notEqual => some .notEqual
  | 3, .less => some .less
  | 3, .lessEqual => some .lessEqual
  | 3, .greater => some .greater
  | 3, .greaterEqual => some .greaterEqual
  | 4, .plus => some .add
  | 4, .minus => some .subtract
  | 5, .star => some .multiply
  | 5, .slash => some .divide
  | 5, .percent => some .modulo
  | _, _ => none

/-- Whether an expression is a variable followed by fixed steps. -/
def isReference : Expr → Bool
  | .variable _ => true
  | .attribute source _ => isReference source
  | .index source (.literal _) => isReference source
  | .index source (.template [.literal _]) => isReference source
  | _ => false

/-- The key of an entry of an object.  A bare word stands for itself, and a
    variable with steps is refused, since it may be meant in two ways. -/
def keyExpr (e : Expr) : Expr :=
  match e with
  | .variable name => .literal (.ofString name)
  | .literal (.bool b) => .literal (.string (if b then "true" else "false"))
  | .literal (.null _) => .literal (.string "null")
  | e => if isReference e then .refused else e

/-- Skip the names of a call that are joined by double colons, up to its opening
    parenthesis. -/
def skipQualifiers (lines : Bool) : (fuel : Nat) → List Token → Option (List Token)
  | 0, _ => none
  | fuel + 1, ts => do
    let (_, ts) ← parseName lines ts
    match ahead lines ts with
    | .mark .openParen :: rest => some rest
    | .mark .doubleColon :: rest => skipQualifiers lines fuel rest
    | _ => none

/-- The names that a `for` introduces, up to and with the word `in`. -/
def parseBinding : Parse Binding := fun ts => do
  let (first, ts) ← parseName false ts
  match expect false .comma ts with
  | some ts => do
    let (second, ts) ← parseName false ts
    return (⟨some first, second⟩, ← expectWord false "in" ts)
  | none => return (⟨none, first⟩, ← expectWord false "in" ts)

/-- Steps behind a splat that goes by attributes only. -/
def parseAttributeSteps (lines : Bool) : (fuel : Nat) → Expr → Parse Expr
  | 0, _, _ => none
  | fuel + 1, e, ts =>
    match ahead lines ts with
    | .mark .dot :: rest =>
      match ahead lines rest with
      | .name name :: rest => parseAttributeSteps lines fuel (.attribute e name) rest
      | .number written :: rest => do
        parseAttributeSteps lines fuel (.index e (← positionExpr written)) rest
      | _ => none
    | _ => some (e, ts)

mutual

/-- An expression. -/
def parseExpr : (fuel : Nat) → (lines : Bool) → Parse Expr
  | 0, _, _ => none
  | fuel + 1, lines, ts => do
    let (condition, ts) ← parseLevel fuel lines 0 ts
    match expect lines .question ts with
    | none => return (condition, ts)
    | some ts => do
      let (yes, ts) ← parseExpr fuel lines ts
      let ts ← expect lines .colon ts
      let (no, ts) ← parseExpr fuel lines ts
      return (.conditional condition yes no, ts)

/-- Operands joined by the operators of a level or a higher one. -/
def parseLevel : (fuel : Nat) → (lines : Bool) → (level : Nat) → Parse Expr
  | 0, _, _, _ => none
  | fuel + 1, lines, level, ts =>
    if level = levels then parseOperand fuel lines ts
    else do
      let (left, ts) ← parseLevel fuel lines (level + 1) ts
      parseOperators fuel lines level left ts

/-- The operators of a level behind a first operand, from left to right. -/
def parseOperators : (fuel : Nat) → (lines : Bool) → (level : Nat) → Expr → Parse Expr
  | 0, _, _, _, _ => none
  | fuel + 1, lines, level, left, ts =>
    match ahead lines ts with
    | .mark m :: rest =>
      match operatorAt? level m with
      | none => some (left, ts)
      | some op => do
        let (right, rest) ← parseLevel fuel lines (level + 1) rest
        parseOperators fuel lines level (.binary op left right) rest
    | _ => some (left, ts)

/-- A term and the steps behind it. -/
def parseOperand : (fuel : Nat) → (lines : Bool) → Parse Expr
  | 0, _, _ => none
  | fuel + 1, lines, ts => do
    let (term, ts) ← parseTerm fuel lines ts
    parseSteps fuel lines term ts

/-- Steps from an expression: attributes, indices and splats. -/
def parseSteps : (fuel : Nat) → (lines : Bool) → Expr → Parse Expr
  | 0, _, _, _ => none
  | fuel + 1, lines, e, ts =>
    match ahead lines ts with
    | .mark .dot :: rest =>
      match ahead lines rest with
      | .name name :: rest => parseSteps fuel lines (.attribute e name) rest
      | .number written :: rest => do
        parseSteps fuel lines (.index e (← positionExpr written)) rest
      | .mark .star :: rest => do
        let (each, rest) ← parseAttributeSteps lines fuel .element rest
        parseSteps fuel lines (.splat e each) rest
      | _ => none
    | .mark .openBracket :: rest =>
      match expect lines .star rest with
      | some rest => do
        let rest ← expect lines .closeBracket rest
        let (each, rest) ← parseSteps fuel lines .element rest
        parseSteps fuel lines (.splat e each) rest
      | none => do
        let (key, rest) ← parseExpr fuel false rest
        parseSteps fuel lines (.index e key) (← expect false .closeBracket rest)
    | _ => some (e, ts)

/-- A term. -/
def parseTerm : (fuel : Nat) → (lines : Bool) → Parse Expr
  | 0, _, _ => none
  | fuel + 1, lines, ts =>
    match ahead lines ts with
    | .number written :: rest => (numberExpr written).map (·, rest)
    | .name name :: rest =>
      match ahead lines rest with
      | .mark .openParen :: rest => (parseArguments fuel rest).map (.refused, ·)
      | .mark .doubleColon :: rest => do
        return (.refused, ← parseArguments fuel (← skipQualifiers lines fuel rest))
      | _ => some (wordExpr name, rest)
    | .openQuote :: rest => do
      let (parts, rest) ← parseParts fuel .closeQuote false rest
      return (← templateExpr false parts, rest)
    | .openHeredoc flush :: rest => do
      let (parts, rest) ← parseParts fuel .closeHeredoc false rest
      return (← templateExpr flush parts, rest)
    | .mark .openParen :: rest => do
      let (inner, rest) ← parseExpr fuel false rest
      return (.group inner, ← expect false .closeParen rest)
    | .mark .minus :: rest => do
      let (operand, rest) ← parseOperand fuel lines rest
      return (.unary .negate operand, rest)
    | .mark .bang :: rest => do
      let (operand, rest) ← parseOperand fuel lines rest
      return (.unary .not operand, rest)
    | .mark .openBracket :: rest =>
      match expectWord false "for" rest with
      | some rest => parseFor fuel false rest
      | none => do
        let (items, rest) ← parseItems fuel rest
        return (.tuple items, rest)
    | .mark .openBrace :: rest =>
      match expectWord false "for" rest with
      | some rest => parseFor fuel true rest
      | none => do
        let (entries, rest) ← parseEntries fuel rest
        return (.object entries, rest)
    | _ => none

/-- The arguments of a call, up to and with its closing parenthesis. -/
def parseArguments : (fuel : Nat) → List Token → Option (List Token)
  | 0, _ => none
  | fuel + 1, ts =>
    match expect false .closeParen ts with
    | some rest => some rest
    | none => do
      let (_, ts) ← parseExpr fuel false ts
      match ahead false ts with
      | .mark .closeParen :: rest => some rest
      | .mark .ellipsis :: rest => expect false .closeParen rest
      | .mark .comma :: rest => parseArguments fuel rest
      | _ => none

/-- The items of a tuple, up to and with its closing bracket. -/
def parseItems : (fuel : Nat) → Parse (List Expr)
  | 0, _ => none
  | fuel + 1, ts =>
    match expect false .closeBracket ts with
    | some rest => some ([], rest)
    | none => do
      let (item, ts) ← parseExpr fuel false ts
      match ahead false ts with
      | .mark .closeBracket :: rest => return ([item], rest)
      | .mark .comma :: rest => do
        let (items, rest) ← parseItems fuel rest
        return (item :: items, rest)
      | _ => none

/-- The entries of an object, up to and with its closing brace. -/
def parseEntries : (fuel : Nat) → Parse (List (Expr × Expr))
  | 0, _ => none
  | fuel + 1, ts =>
    match ts with
    | .newline :: rest => parseEntries fuel rest
    | .mark .closeBrace :: rest => some ([], rest)
    | ts => do
      let (key, ts) ← parseExpr fuel true ts
      let ts ← (expect true .assign ts).or (expect true .colon ts)
      let (value, ts) ← parseExpr fuel true ts
      match ts with
      | .mark .closeBrace :: rest => return ([(keyExpr key, value)], rest)
      | .mark .comma :: rest | .newline :: rest => do
        let (entries, rest) ← parseEntries fuel rest
        return ((keyExpr key, value) :: entries, rest)
      | _ => none

/-- A tuple or an object built by a `for`, behind this word, up to and with what
    closes it. -/
def parseFor : (fuel : Nat) → (object : Bool) → Parse Expr
  | 0, _, _ => none
  | fuel + 1, object, ts => do
    let (binding, ts) ← parseBinding ts
    let (source, ts) ← parseExpr fuel false ts
    let ts ← expect false .colon ts
    let (first, ts) ← parseExpr fuel false ts
    let (key?, body, ts) ←
      match expect false .arrow ts with
      | none => some ((none : Option Expr), first, ts)
      | some ts => (parseExpr fuel false ts).map fun (body, ts) => (some first, body, ts)
    let (grouped, ts) :=
      match expect false .ellipsis ts with
      | some ts => (true, ts)
      | none => (false, ts)
    let (condition, ts) ←
      match expectWord false "if" ts with
      | none => some (.literal (.bool true), ts)
      | some ts => parseExpr fuel false ts
    if object then do
      let ts ← expect false .closeBrace ts
      return (.forObject binding source (← key?) body condition grouped, ts)
    else do
      let ts ← expect false .closeBracket ts
      if key?.isSome || grouped then none
      else return (.forTuple binding source body condition, ts)

/-- The parts of a template, up to and with what closes it.  White space next to
    a sequence that says so is left out. -/
def parseParts : (fuel : Nat) → (closing : Token) → (trim : Bool) → Parse (List Part)
  | 0, _, _, _ => none
  | fuel + 1, closing, trim, ts =>
    match ts with
    | [] => none
    | t :: rest =>
      if t = closing then some ([], rest)
      else
        match t with
        | .text content => do
          let content := if trim then Text.trimStart content else content
          let content :=
            match rest with
            | .openValue true :: _ | .openDirective true :: _ => Text.trimEnd content
            | _ => content
          let (parts, rest) ← parseParts fuel closing false rest
          return (.text content :: parts, rest)
        | .openValue _ => do
          let (e, rest) ← parseExpr fuel false rest
          parseRest fuel closing (.value e) rest
        | .openDirective _ => do
          let (part, rest) ← parseDirective fuel rest
          parseRest fuel closing part rest
        | _ => none

/-- The end of a sequence and the parts behind it. -/
def parseRest : (fuel : Nat) → (closing : Token) → Part → Parse (List Part)
  | 0, _, _, _ => none
  | fuel + 1, closing, part, ts =>
    match ahead false ts with
    | .closeSequence trim :: rest => do
      let (parts, rest) ← parseParts fuel closing trim rest
      return (part :: parts, rest)
    | _ => none

/-- A directive of a template, from its first word. -/
def parseDirective : (fuel : Nat) → Parse Part
  | 0, _ => none
  | fuel + 1, ts => do
    let (word, ts) ← parseName false ts
    if word = "if" then do
      let (condition, ts) ← parseExpr fuel false ts
      return (.ifStart condition, ts)
    else if word = "for" then do
      let (binding, ts) ← parseBinding ts
      let (source, ts) ← parseExpr fuel false ts
      return (.forStart binding source, ts)
    else if word = "else" then return (.elseMark, ts)
    else if word = "endif" then return (.ifEnd, ts)
    else if word = "endfor" then return (.forEnd, ts)
    else none

end

/-! ## Bodies -/

/-- A quoted label, behind its opening quote.  It has no sequences. -/
def parseLabel : Parse String
  | .closeQuote :: rest => some ("", rest)
  | .text content :: .closeQuote :: rest => some (String.ofList content, rest)
  | _ => none

/-- The labels of a block, up to and with its opening brace. -/
def parseLabels : (fuel : Nat) → Parse (List String)
  | 0, _ => none
  | fuel + 1, ts =>
    match ts with
    | .mark .openBrace :: rest => some ([], rest)
    | .name label :: rest => do
      let (labels, rest) ← parseLabels fuel rest
      return (label :: labels, rest)
    | .openQuote :: rest => do
      let (label, rest) ← parseLabel rest
      let (labels, rest) ← parseLabels fuel rest
      return (label :: labels, rest)
    | _ => none

/-- The end of a line, or of the file. -/
def endLine : List Token → Option (List Token)
  | [] => some []
  | .newline :: rest => some rest
  | _ => none

/-- Add an attribute in front of a body; a name may be used once. -/
def Body.addAttribute (name : String) (e : Expr) (b : Body) : Option Body :=
  if (b.attributes.lookup name).isSome then none
  else some { b with attributes := (name, e) :: b.attributes }

mutual

/-- The body of a file, or with `nested` of a block up to and with its closing
    brace. -/
def parseBody : (fuel : Nat) → (nested : Bool) → Parse Body
  | 0, _, _ => none
  | fuel + 1, nested, ts =>
    match ts with
    | [] => if nested then none else some (⟨[], []⟩, [])
    | .newline :: rest => parseBody fuel nested rest
    | .mark .closeBrace :: rest => if nested then some (⟨[], []⟩, rest) else none
    | .name name :: .mark .assign :: rest => do
      let (e, rest) ← parseExpr fuel true rest
      let (body, rest) ← parseBody fuel nested (← endLine rest)
      return (← body.addAttribute name e, rest)
    | .name type :: rest => do
      let (block, rest) ← parseBlock fuel type rest
      let (body, rest) ← parseBody fuel nested (← endLine rest)
      return ({ body with blocks := block :: body.blocks }, rest)
    | _ => none

/-- A block behind its type.  Its braces hold lines, or a single attribute on the
    same line, or nothing. -/
def parseBlock : (fuel : Nat) → (type : String) → Parse Block
  | 0, _, _ => none
  | fuel + 1, type, ts => do
    let (labels, ts) ← parseLabels fuel ts
    match ts with
    | .name name :: .mark .assign :: rest => do
      let (e, rest) ← parseExpr fuel true rest
      return (.mk type labels [(name, e)] [], ← expect true .closeBrace rest)
    | .newline :: _ | .mark .closeBrace :: _ => do
      let (body, rest) ← parseBody fuel true ts
      return (.mk type labels body.attributes body.blocks, rest)
    | _ => none

end

/-- Calls that a token allows at most before the next one is taken, and some to
    spare. -/
def fuelPerToken : Nat := 16

/-- The body of a file. -/
def parse? (ts : List Token) : Option Body :=
  (parseBody (fuelPerToken * (ts.length + 4)) false ts).map (·.1)

end SeaOfNodes.Document
