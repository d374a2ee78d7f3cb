/-
  SeaOfNodes.Cbor.Item

  The data items of the binary wire format, and their canonical form: the
  shortest head for every number and length, the narrowest float that stands for
  the same number, one pattern for what is no number, and definite lengths only.
-/
import SeaOfNodes.Number.Binary

namespace SeaOfNodes.Cbor

/-- A sequence of bytes. -/
abbrev Bytes := List UInt8

/-- A data item. -/
inductive Item where
  | uint (n : Nat)
  /-- The number `-1 - n`. -/
  | negative (n : Nat)
  | bytes (content : Bytes)
  /-- A text, as the chunks it came in; one chunk for a definite length. -/
  | text (chunks : List Bytes)
  | array (items : List Item)
  /-- A map, keys and values in turn. -/
  | map (entries : List Item)
  | tag (number : Nat) (content : Item)
  /-- A value with a number: 20 false, 21 true, 22 null, 23 undefined. -/
  | simple (code : Nat)
  | float (value : Number.Double)

/-- False. -/
def Item.false : Item := .simple 20

/-- True. -/
def Item.true : Item := .simple 21

/-- Null. -/
def Item.null : Item := .simple 22

/-- A text with a definite length. -/
def Item.ofString (s : String) : Item := .text [s.toUTF8.toList]

/-! ## Canonical form -/

/-- The low `width` bytes of a number, most significant first. -/
def bigEndian : (width : Nat) → Nat → Bytes
  | 0, _ => []
  | width + 1, n => bigEndian width (n / 256) ++ [UInt8.ofNat (n % 256)]

/-- The head of an item: its major type and a number, in the shortest form. -/
def head (major n : Nat) : Bytes :=
  let lead := fun info => UInt8.ofNat (major * 32 + info)
  if n < 24 then [lead n]
  else if n < 0x100 then lead 24 :: bigEndian 1 n
  else if n < 0x10000 then lead 25 :: bigEndian 2 n
  else if n < 0x100000000 then lead 26 :: bigEndian 4 n
  else lead 27 :: bigEndian 8 n

/-- The narrowest form of a float. -/
def encodeFloat (value : Number.Double) : Bytes :=
  match value.datum with
  | .nan => [0xf9, 0x7e, 0x00]
  | .inf negative => [0xf9, if negative then 0xfc else 0x7c, 0x00]
  | .finite negative coeff exp =>
    match Number.Format.half.represent? negative coeff exp with
    | some bits => 0xf9 :: bigEndian 2 bits
    | none =>
      match Number.Format.single.represent? negative coeff exp with
      | some bits => 0xfa :: bigEndian 4 bits
      | none => 0xfb :: bigEndian 8 value.bits.toNat

mutual

/-- The canonical form of an item.  The entries of a map keep their order. -/
def Item.encode : Item → Bytes
  | .uint n => head 0 n
  | .negative n => head 1 n
  | .bytes content => head 2 content.length ++ content
  | .text chunks => head 3 chunks.flatten.length ++ chunks.flatten
  | .array items => head 4 items.length ++ encodeAll items
  | .map entries => head 5 (entries.length / 2) ++ encodeAll entries
  | .tag number content => head 6 number ++ content.encode
  | .simple code => head 7 code
  | .float value => encodeFloat value

/-- The canonical forms of items, one after the other. -/
def encodeAll : List Item → Bytes
  | [] => []
  | item :: rest => item.encode ++ encodeAll rest

end

end SeaOfNodes.Cbor
