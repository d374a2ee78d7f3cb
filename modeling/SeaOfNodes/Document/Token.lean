/-
  SeaOfNodes.Document.Token

  The tokens of a description file.  A template, between quotes or in a heredoc,
  gives one token for each stretch of text and the tokens of the sequences in it.
-/

namespace SeaOfNodes.Document

/-- A mark of punctuation. -/
inductive Mark where
  | openBrace
  | closeBrace
  | openBracket
  | closeBracket
  | openParen
  | closeParen
  | dot
  | comma
  | star
  | slash
  | percent
  | plus
  | minus
  | assign
  | less
  | greater
  | bang
  | question
  | colon
  | equal
  | notEqual
  | lessEqual
  | greaterEqual
  | both
  | either
  | ellipsis
  | arrow
  | doubleColon
deriving DecidableEq

/-- A token. -/
inductive Token where
  | name (text : String)
  | number (written : String)
  | mark (m : Mark)
  | newline
  | openQuote
  | closeQuote
  /-- The beginning of a heredoc; `flush` takes away the common indentation. -/
  | openHeredoc (flush : Bool)
  | closeHeredoc
  /-- Text of a template, its escapes read. -/
  | text (content : List Char)
  /-- The beginning of a value in a template; `trim` takes away the white space
      in front of it. -/
  | openValue (trim : Bool)
  /-- The beginning of a directive in a template. -/
  | openDirective (trim : Bool)
  /-- The end of a value or a directive; `trim` takes away the white space behind
      it. -/
  | closeSequence (trim : Bool)
deriving DecidableEq

end SeaOfNodes.Document
