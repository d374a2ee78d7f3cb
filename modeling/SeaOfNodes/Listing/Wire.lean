/-
  SeaOfNodes.Listing.Wire

  Listings as data items of the wire format.  A listing, a block, an instruction
  and an operand are maps with text keys, in canonical order; the keys of empty
  lists and of zero operand fields are left out.

  Reading is more liberal than writing: unknown keys and keys that are numbers
  are skipped, a key matches a field also if only the case differs, the first of
  several keys for one field counts, null stands for a missing value, and tags
  around a value are looked through.
-/
import SeaOfNodes.Cbor.Reader
import SeaOfNodes.Listing.Exchange

namespace SeaOfNodes.Listing

open Cbor (Item)

/-! ## Writing -/

/-- A signed integer. -/
def intItem (n : Int64) : Item :=
  if 0 ≤ n then .uint n.toInt.toNat else .negative (-1 - n.toInt).toNat

/-- A truth value. -/
def boolItem (b : Bool) : Item := if b then .true else .false

/-- A literal. -/
def literalItem : Literal → Item
  | .int value => intItem value
  | .uint value => .uint value.toNat
  | .float value => .float value
  | .str value => .ofString value
  | .bool value => boolItem value
  | .bytes value => .bytes value
  | .simple code => .simple code.toNat
  | .null => .null

/-- One entry of a map. -/
def entry (key : String) (value : Item) : List Item := [.ofString key, value]

/-- One entry of a map, left out if its list is empty. -/
def listEntry (key : String) (items : List Item) : List Item :=
  if items.isEmpty then [] else entry key (.array items)

/-- An operand: its kind, and the fields that are not zero. -/
def operandItem (o : Operand) : Item :=
  .map ((if o.block = 0 then [] else entry "b" (intItem o.block))
    ++ entry "k" (.uint o.kind.toNat)
    ++ (if o.register = 0 then [] else entry "r" (intItem o.register))
    ++ (if o.selector = "" then [] else entry "s" (.ofString o.selector)))

/-- An instruction. -/
def instrItem (i : Instr) : Item :=
  .map (entry "op" (.ofString i.op)
    ++ listEntry "args" (i.args.map intItem)
    ++ entry "dest" (intItem i.dest)
    ++ listEntry "imms" (i.imms.map literalItem)
    ++ listEntry "trailing" (i.trailing.map operandItem))

/-- A block. -/
def blockItem (block : Option Block) : Item :=
  .map (entry "insns" (match block with
    | none => .null
    | some instrs => .array (instrs.map instrItem)))

/-- The blocks of a listing. -/
def bodyItem : Body → Item
  | none => .null
  | some blocks => .array (blocks.map blockItem)

/-- A listing. -/
def listingItem (l : Listing) : Item :=
  .map (entry "graph" (.ofString l.graph) ++ entry "blocks" (bodyItem l.body))

/-- The bytes of the blocks of a listing. -/
def encodeBody (body : Body) : Cbor.Bytes := (bodyItem body).encode

/-- The bytes of a list of listings, which may be absent. -/
def encodeListings (listings : Option (List Listing)) : Cbor.Bytes :=
  Item.encode (match listings with
    | none => .null
    | some listings => .array (listings.map listingItem))

/-! ## Reading -/

/-- The tag that marks its content as an item of this format. -/
def selfDescribed : Nat := 55799

/-- Whether the content of a tag has the type that the tag asks for: a text for
    0, a number for 1, bytes for 2 and 3. -/
def admissible (number : Nat) (content : Item) : Bool :=
  match number, content with
  | 0, .text _ => true
  | 0, _ => false
  | 1, .uint _ | 1, .negative _ | 1, .float _ => true
  | 1, _ => false
  | 2, .bytes _ | 3, .bytes _ => true
  | 2, _ | 3, _ => false
  | _, _ => true

/-- What stands inside tags.  A big number is the number; any other tag is looked
    through if its content is admissible. -/
def untag : Item → Option Item
  | .tag number content =>
    if !admissible number content then none
    else
      match number, content with
      | 2, .bytes b => some (.uint (Cbor.ofBigEndian b))
      | 3, .bytes b => some (.negative (Cbor.ofBigEndian b))
      | _, _ => untag content
  | item => some item

/-- Whether an item stands for a missing value. -/
def isNull : Item → Bool
  | .simple code => code == 22 || code == 23
  | _ => false

/-- A signed integer of 64 bits.  A value with a number that has no other meaning
    counts as its number. -/
def readInt (item : Item) : Option Int64 := do
  match ← untag item with
  | .uint n => if n < 0x8000000000000000 then some (Int64.ofNat n) else none
  | .negative n => if n < 0x8000000000000000 then some (Int64.ofInt (-1 - n)) else none
  | .simple code =>
    if code = 22 ∨ code = 23 then some 0
    else if code = 20 ∨ code = 21 then none
    else some (Int64.ofNat code)
  | _ => none

/-- An unsigned integer of 8 bits. -/
def readByte (item : Item) : Option UInt8 := do
  match ← untag item with
  | .uint n => if n < 0x100 then some (UInt8.ofNat n) else none
  | .simple code =>
    if code = 22 ∨ code = 23 then some 0
    else if code = 20 ∨ code = 21 then none
    else some (UInt8.ofNat code)
  | _ => none

/-- The text that bytes encode. -/
def readUtf8 (bytes : Cbor.Bytes) : Option String := String.fromUTF8? ⟨bytes.toArray⟩

/-- The text of chunks, each of which encodes a text. -/
def readChunkText (chunks : List Cbor.Bytes) : Option String :=
  (chunks.mapM readUtf8).map String.join

/-- A text. -/
def readText (item : Item) : Option String := do
  match ← untag item with
  | .text chunks => readChunkText chunks
  | item => if isNull item then some "" else none

/-- A list, which may be absent. -/
def readList {α : Type} (read : Item → Option α) (item : Item) : Option (Option (List α)) := do
  match ← untag item with
  | .array items => (items.mapM read).map some
  | item => if isNull item then some none else none

/-- A literal: any scalar. -/
def readLiteral (item : Item) : Option Literal :=
  match item with
  | .tag number content => if number = selfDescribed then readLiteral content else none
  | .uint n => some (.uint (UInt64.ofNat n))
  | .negative n => if n < 0x8000000000000000 then some (.int (Int64.ofInt (-1 - n))) else none
  | .bytes content => some (.bytes content)
  | .text chunks => (readChunkText chunks).map .str
  | .simple code =>
    some (match code with
      | 20 => .bool false
      | 21 => .bool true
      | 22 | 23 => .null
      | code => .simple (UInt8.ofNat code))
  | .float value => some (.float value)
  | .array _ | .map _ => none

/-- A character with the case of an ASCII letter taken away. -/
def foldCase (c : Char) : Char := if 'A' ≤ c ∧ c ≤ 'Z' then Char.ofNat (c.toNat + 32) else c

/-- Whether two texts differ at most in the case of ASCII letters. -/
def sameFolded (a b : String) : Bool := a.toList.map foldCase == b.toList.map foldCase

/-- The field a key stands for: the exact one, else one that differs in case,
    among those not found yet. -/
def matchField (open_ : List String) (key : String) : Option String :=
  (open_.find? (· == key)).or (open_.find? (sameFolded · key))

/-- The values of the fields of a map, in the order they came. -/
def collectFields (open_ : List String) : List Item → Option (List (String × Item))
  | [] => some []
  | [_] => none
  | key :: value :: rest =>
    match key with
    | .text chunks => do
      let key ← readChunkText chunks
      match matchField open_ key with
      | none => collectFields open_ rest
      | some field => do
        let others ← collectFields (open_.erase field) rest
        return (field, value) :: others
    | .uint _ | .negative _ => collectFields open_ rest
    | _ => none

/-- The fields of a map; null has none. -/
def readFields (names : List String) (item : Item) : Option (List (String × Item)) := do
  match ← untag item with
  | .map entries => collectFields names entries
  | item => if isNull item then some [] else none

/-- The value of a field, or the value for a missing one. -/
def field {α : Type} (fields : List (String × Item)) (name : String) (read : Item → Option α)
    (missing : α) : Option α :=
  match fields.lookup name with
  | some item => read item
  | none => some missing

/-- An operand. -/
def readOperand (item : Item) : Option Operand := do
  let fields ← readFields ["k", "r", "b", "s"] item
  return ⟨← field fields "k" readByte 0, ← field fields "r" readInt 0, ← field fields "b" readInt 0,
    ← field fields "s" readText ""⟩

/-- An instruction. -/
def readInstr (item : Item) : Option Instr := do
  let fields ← readFields ["op", "dest", "imms", "args", "trailing"] item
  let op ← field fields "op" readText ""
  let dest ← field fields "dest" readInt 0
  let imms ← field fields "imms" (readList readLiteral) none
  let args ← field fields "args" (readList readInt) none
  let trailing ← field fields "trailing" (readList readOperand) none
  return ⟨op, dest, imms.getD [], args.getD [], trailing.getD []⟩

/-- A block. -/
def readBlock (item : Item) : Option (Option Block) := do
  let fields ← readFields ["insns"] item
  field fields "insns" (readList readInstr) none

/-- The blocks of a listing. -/
def readBody (item : Item) : Option Body := readList readBlock item

/-- A listing. -/
def readListing (item : Item) : Option Listing := do
  let fields ← readFields ["graph", "blocks"] item
  return ⟨← field fields "graph" readText "", ← field fields "blocks" readBody none⟩

/-- The blocks that bytes stand for. -/
def decodeBody? (bytes : Cbor.Bytes) : Option Body := (Cbor.decode? bytes).bind readBody

/-- The listings that bytes stand for. -/
def decodeListings? (bytes : Cbor.Bytes) : Option (Option (List Listing)) :=
  (Cbor.decode? bytes).bind (readList readListing)

end SeaOfNodes.Listing
