/-
  SeaOfNodes.Toml.Syntax

  What a settings file says, line by line: headers that open a table, and
  assignments of values to keys.  A key is a path of parts.
-/
import SeaOfNodes.Number.Binary

namespace SeaOfNodes.Toml

/-- The parts of a key, outermost first. -/
abbrev Path := List String

/-- A value as it is written. -/
inductive Value where
  | int (value : Int64)
  | float (value : Number.Double)
  | bool (value : Bool)
  | text (value : String)
  /-- A date, a time of day, or both, with or without an offset. -/
  | moment (written : String)
  | array (items : List Value)
  /-- A table between braces. -/
  | table (entries : List (Path × Value))

/-- One statement of a file. -/
inductive Statement where
  /-- Open a table: `[a.b]`. -/
  | table (path : Path)
  /-- Append a table to an array of tables and open it: `[[a.b]]`. -/
  | element (path : Path)
  /-- Give a key of the open table a value: `a.b = 1`. -/
  | assign (path : Path) (value : Value)

/-! ## Keys as they are written -/

/-- Characters of a key that needs no quotes. -/
def isBareChar (c : Char) : Bool :=
  ('A' ≤ c && c ≤ 'Z') || ('a' ≤ c && c ≤ 'z') || ('0' ≤ c && c ≤ '9') || c == '_' || c == '-'

/-- The four hexadecimal digits of a control character. -/
def controlCode (c : Char) : List Char :=
  let digit := fun n : Nat => Char.ofNat (if n < 10 then '0'.toNat + n else 'a'.toNat + (n - 10))
  ['0', '0', digit (c.toNat / 16), digit (c.toNat % 16)]

/-- A character between the quotes of a key. -/
def quotedChar (c : Char) : List Char :=
  match c.toNat with
  | 8 => ['\\', 'b']
  | 9 => ['\\', 't']
  | 10 => ['\\', 'n']
  | 12 => ['\\', 'f']
  | 13 => ['\\', 'r']
  | _ =>
    if c = '"' ∨ c = '\\' then ['\\', c]
    else if c.toNat < 0x20 ∨ c.toNat = 0x7f then '\\' :: 'u' :: controlCode c
    else [c]

/-- A part of a key, between quotes unless it is bare. -/
def partText (part : String) : String :=
  if part ≠ "" ∧ part.toList.all isBareChar then part
  else String.ofList ('"' :: part.toList.flatMap quotedChar ++ ['"'])

/-- A key: its parts with points between them. -/
def pathText (path : Path) : String := ".".intercalate (path.map partText)

end SeaOfNodes.Toml
