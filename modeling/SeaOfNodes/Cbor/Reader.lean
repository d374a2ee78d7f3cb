/-
  SeaOfNodes.Cbor.Reader

  Reading data items.  Every well-formed item is accepted, canonical or not,
  within limits: arrays, maps and tags nest at most 32 deep, an array has at
  most 131072 elements and a map as many pairs.
-/
import SeaOfNodes.Cbor.Item

namespace SeaOfNodes.Cbor

/-- A reader takes what it reads off the front of the bytes. -/
abbrev Reader (α : Type) := Bytes → Option (α × Bytes)

/-- How deep items may nest. -/
def maxDepth : Nat := 32

/-- How many elements an array may have, and how many pairs a map. -/
def maxLength : Nat := 131072

/-- The head of an item: its major type, the five low bits of the first byte, and
    the number that these give or announce. -/
structure Head where
  major : Nat
  info : Nat
  argument : Nat

/-- The mark of an indefinite length, and of its end. -/
def indefinite : Nat := 31

/-- The byte that ends an item of indefinite length. -/
def breakByte : UInt8 := 0xff

/-- Take a number of bytes. -/
def readBytes (n : Nat) : Reader Bytes := fun bytes =>
  if n ≤ bytes.length then some (bytes.take n, bytes.drop n) else none

/-- The number that bytes stand for, most significant first. -/
def ofBigEndian (bytes : Bytes) : Nat := bytes.foldl (fun n b => n * 256 + b.toNat) 0

/-- Read the number of a head that takes `width` bytes. -/
def readArgument (major info width : Nat) : Reader Head := fun bytes => do
  let (argument, bytes) ← readBytes width bytes
  return (⟨major, info, ofBigEndian argument⟩, bytes)

/-- Read a head.  Numbers and tags have a definite argument, values with a number
    above 23 do not use the long form for small codes, and the end mark is no
    item. -/
def readHead : Reader Head
  | [] => none
  | first :: rest =>
    let major := first.toNat / 32
    let info := first.toNat % 32
    if info < 24 then some (⟨major, info, info⟩, rest)
    else if info = 24 then do
      let (head, rest) ← readArgument major info 1 rest
      if major = 7 ∧ head.argument < 32 then none else return (head, rest)
    else if info = 25 then readArgument major info 2 rest
    else if info = 26 then readArgument major info 4 rest
    else if info = 27 then readArgument major info 8 rest
    else if info = indefinite ∧ 2 ≤ major ∧ major ≤ 5 then some (⟨major, info, 0⟩, rest)
    else none

/-- Read a fixed number of items. -/
def readMany (read : Reader Item) : Nat → Reader (List Item)
  | 0, bytes => some ([], bytes)
  | n + 1, bytes => do
    let (item, bytes) ← read bytes
    let (items, bytes) ← readMany read n bytes
    return (item :: items, bytes)

/-- Read items up to the end mark.  An item takes at least one byte. -/
def readUntilBreak (read : Reader Item) : (fuel : Nat) → Reader (List Item)
  | 0, _ => none
  | fuel + 1, bytes =>
    match bytes with
    | [] => none
    | b :: rest =>
      if b = breakByte then some ([], rest)
      else do
        let (item, bytes) ← read bytes
        let (items, bytes) ← readUntilBreak read fuel bytes
        return (item :: items, bytes)

/-- Read the chunks of a string of indefinite length up to the end mark.  Every
    chunk is a string of the same type with a definite length. -/
def readChunks (major : Nat) : (fuel : Nat) → Reader (List Bytes)
  | 0, _ => none
  | fuel + 1, bytes =>
    match bytes with
    | [] => none
    | b :: rest =>
      if b = breakByte then some ([], rest)
      else do
        let (head, bytes) ← readHead bytes
        if head.major ≠ major ∨ head.info = indefinite then none
        else
          let (chunk, bytes) ← readBytes head.argument bytes
          let (chunks, bytes) ← readChunks major fuel bytes
          return (chunk :: chunks, bytes)

/-- Read the chunks of a string whose head was read. -/
def readString (head : Head) : Reader (List Bytes) := fun bytes =>
  if head.info = indefinite then readChunks head.major (bytes.length + 1) bytes
  else do
    let (content, bytes) ← readBytes head.argument bytes
    return ([content], bytes)

/-- Read the items of an array or map whose head was read, where an element
    consists of `width` items. -/
def readElements (read : Reader Item) (width : Nat) (head : Head) : Reader (List Item) :=
  fun bytes =>
    if head.info = indefinite then do
      let (items, bytes) ← readUntilBreak read (bytes.length + 1) bytes
      if items.length % width = 0 ∧ items.length / width ≤ maxLength then return (items, bytes)
      else none
    else if head.argument ≤ maxLength then readMany read (width * head.argument) bytes
    else none

/-- Read an item without a tag, with a reader for the items inside, if there may
    be any. -/
def readUntagged (inner? : Option (Reader Item)) : Reader Item := fun bytes => do
  let (head, bytes) ← readHead bytes
  match head.major with
  | 0 => return (.uint head.argument, bytes)
  | 1 => return (.negative head.argument, bytes)
  | 2 =>
    let (chunks, bytes) ← readString head bytes
    return (.bytes chunks.flatten, bytes)
  | 3 =>
    let (chunks, bytes) ← readString head bytes
    return (.text chunks, bytes)
  | 4 =>
    let (items, bytes) ← readElements (← inner?) 1 head bytes
    return (.array items, bytes)
  | 5 =>
    let (items, bytes) ← readElements (← inner?) 2 head bytes
    return (.map items, bytes)
  | 7 =>
    match head.info with
    | 25 => return (.float (.ofPattern .half head.argument), bytes)
    | 26 => return (.float (.ofPattern .single head.argument), bytes)
    | 27 => return (.float ⟨UInt64.ofNat head.argument⟩, bytes)
    | _ => return (.simple head.argument, bytes)
  | _ => none

/-- Whether the bytes begin with a tag. -/
def startsWithTag : Bytes → Bool
  | [] => false
  | b :: _ => b.toNat / 32 = 6

/-- Read an item, with a reader for what is one level deeper.  A first tag costs
    no level; each tag directly inside another does. -/
def readWith (inner? : Option (Reader Item)) : Reader Item := fun bytes =>
  if startsWithTag bytes then do
    let (head, bytes) ← readHead bytes
    let (content, bytes) ←
      if startsWithTag bytes then (← inner?) bytes else readUntagged inner? bytes
    return (.tag head.argument content, bytes)
  else readUntagged inner? bytes

/-- Read an item that nests at most `depth` deep. -/
def readItem : (depth : Nat) → Reader Item
  | 0 => readWith none
  | depth + 1 => readWith (some (readItem depth))

/-- The item that bytes stand for, if they stand for exactly one. -/
def decode? (bytes : Bytes) : Option Item :=
  match readItem maxDepth bytes with
  | some (item, []) => some item
  | _ => none

end SeaOfNodes.Cbor
