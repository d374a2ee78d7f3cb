/-
  SeaOfNodes.Proofs.Cbor.RoundTrip

  What is written as a data item is read back, whatever follows it.  Heads come in five
  widths and floats in three, and each is told from the others by its first byte; an item
  that nests no deeper than the reader goes and whose lists are no longer than it accepts
  is read as it was.
-/
import SeaOfNodes.Cbor.Reader
import SeaOfNodes.Proofs.Number.Exact

namespace SeaOfNodes.Cbor

open Number (Double Format)

/-! ## Numbers of several bytes -/

@[simp] theorem length_bigEndian (width n : Nat) : (bigEndian width n).length = width := by
  induction width generalizing n with
  | zero => rfl
  | succ width ih => simp [bigEndian, ih]

/-- The low bytes of a number are read as the number, if it has no more of them. -/
theorem ofBigEndian_bigEndian {width n : Nat} (h : n < 256 ^ width) : ofBigEndian (bigEndian width n) = n := by
  induction width generalizing n with
  | zero =>
      obtain rfl : n = 0 := by simpa using h
      rfl
  | succ width ih =>
      have hhigh : n / 256 < 256 ^ width := by
        rw [Nat.div_lt_iff_lt_mul (by decide), ← Nat.pow_succ]
        exact h
      have hlast : (UInt8.ofNat (n % 256)).toNat = n % 256 := UInt8.toNat_ofNat_of_lt' (Nat.mod_lt _ (by decide))
      have hrest := ih hhigh
      rw [ofBigEndian] at hrest
      rw [ofBigEndian, bigEndian, List.foldl_append, hrest, List.foldl_cons, List.foldl_nil, hlast]
      omega

theorem readBytes_append (content rest : Bytes) : readBytes content.length (content ++ rest) = some (content, rest) := by
  simp [readBytes]

theorem readArgument_bigEndian (major info : Nat) {width n : Nat} (h : n < 256 ^ width) (rest : Bytes) :
    readArgument major info width (bigEndian width n ++ rest) = some (⟨major, info, n⟩, rest) := by
  have hread := readBytes_append (bigEndian width n) rest
  rw [length_bigEndian] at hread
  simp [readArgument, hread, ofBigEndian_bigEndian h]

/-! ## Heads -/

/-- The first byte of a head: the major type above five bits. -/
def lead (major info : Nat) : UInt8 := UInt8.ofNat (major * 32 + info)

theorem toNat_lead {major info : Nat} (hmajor : major < 8) (hinfo : info < 32) :
    (lead major info).toNat = major * 32 + info := UInt8.toNat_ofNat_of_lt' (by change _ < 256; omega)

/-- What a first byte announces. -/
theorem readHead_lead {major info : Nat} (hmajor : major < 8) (hinfo : info < 32) (rest : Bytes) :
    readHead (lead major info :: rest) =
      if info < 24 then some (⟨major, info, info⟩, rest)
      else if info = 24 then
        (readArgument major info 1 rest).bind fun p =>
          if major = 7 ∧ p.1.argument < 32 then none else some (p.1, p.2)
      else if info = 25 then readArgument major info 2 rest
      else if info = 26 then readArgument major info 4 rest
      else if info = 27 then readArgument major info 8 rest
      else if info = indefinite ∧ 2 ≤ major ∧ major ≤ 5 then some (⟨major, info, 0⟩, rest)
      else none := by
  have hdiv : (lead major info).toNat / 32 = major := by rw [toNat_lead hmajor hinfo]; omega
  have hmod : (lead major info).toNat % 32 = info := by rw [toNat_lead hmajor hinfo]; omega
  rw [readHead, hdiv, hmod]
  rfl

/-- What a first byte may announce in place of a small number, and the bytes the number then
    takes. -/
def widths : List (Nat × Nat) := [(24, 1), (25, 2), (26, 4), (27, 8)]

/-- A small number stands in the first byte, any other behind it. -/
theorem head_eq (major : Nat) {n : Nat} (hn : n < 2 ^ 64) :
    (n < 24 ∧ head major n = [lead major n]) ∨
      24 ≤ n ∧ ∃ p ∈ widths, n < 256 ^ p.2 ∧ head major n = lead major p.1 :: bigEndian p.2 n := by
  unfold head
  simp only
  split
  · rename_i hsmall
    exact .inl ⟨hsmall, rfl⟩
  rename_i hlarge
  refine .inr ⟨Nat.not_lt.1 hlarge, ?_⟩
  split
  · rename_i hfits
    exact ⟨(24, 1), by decide, hfits, rfl⟩
  split
  · rename_i hfits
    exact ⟨(25, 2), by decide, hfits, rfl⟩
  split
  · rename_i hfits
    exact ⟨(26, 4), by decide, hfits, rfl⟩
  · exact ⟨(27, 8), by decide, hn, rfl⟩

/-- The head of a number is read as the number, and does not announce an indefinite length. -/
theorem readHead_head {major n : Nat} (hmajor : major < 8) (hn : n < 2 ^ 64) (hsimple : major = 7 → n < 24)
    (rest : Bytes) : ∃ info, info ≠ indefinite ∧ (major = 7 → info = n) ∧
      readHead (head major n ++ rest) = some (⟨major, info, n⟩, rest) := by
  rcases head_eq major hn with ⟨hsmall, heq⟩ | ⟨hlarge, p, hp, hfits, heq⟩
  · refine ⟨n, by unfold indefinite; omega, fun _ => rfl, ?_⟩
    rw [heq, List.singleton_append, readHead_lead hmajor (by omega), if_pos hsmall]
  · have hne : major ≠ 7 := by omega
    have hdefinite : ∀ p ∈ widths, p.1 ≠ indefinite := by decide
    refine ⟨p.1, hdefinite p hp, fun h => absurd h hne, ?_⟩
    rw [heq, List.cons_append]
    simp only [widths, List.mem_cons, List.not_mem_nil, or_false] at hp
    rcases hp with rfl | rfl | rfl | rfl <;>
      simp [readHead_lead hmajor, readArgument_bigEndian _ _ hfits, hne]

/-- It begins a tag only if it is the head of one. -/
theorem startsWithTag_head {major n : Nat} (hmajor : major < 8) (hn : n < 2 ^ 64) (rest : Bytes) :
    startsWithTag (head major n ++ rest) = decide (major = 6) := by
  have hlead : ∀ info < 32, (lead major info).toNat / 32 = major := by
    intro info hinfo
    rw [toNat_lead hmajor hinfo]
    omega
  rcases head_eq major hn with ⟨hsmall, heq⟩ | ⟨-, p, hp, -, heq⟩
  · rw [heq, List.singleton_append, startsWithTag, hlead n (by omega)]
  · have hinfo : ∀ p ∈ widths, p.1 < 32 := by decide
    rw [heq, List.cons_append, startsWithTag, hlead p.1 (hinfo p hp)]

/-! ## Floats -/

/-- The three widths of a float are read alike. -/
theorem readHead_float (info width : Nat) {bits : Nat} (hwidth : (info, width) ∈ [(25, 2), (26, 4), (27, 8)])
    (hbits : bits < 256 ^ width) (rest : Bytes) :
    readHead (lead 7 info :: (bigEndian width bits ++ rest)) = some (⟨7, info, bits⟩, rest) := by
  simp only [List.mem_cons, List.not_mem_nil, or_false, Prod.mk.injEq] at hwidth
  rcases hwidth with ⟨rfl, rfl⟩ | ⟨rfl, rfl⟩ | ⟨rfl, rfl⟩ <;>
    simp [readHead_lead, readArgument_bigEndian _ _ hbits]

section Floats

variable (inner? : Option (Reader Item)) (rest : Bytes)

theorem readUntagged_half (bits : Nat) (hbits : bits < 256 ^ 2) :
    readUntagged inner? (0xf9 :: bigEndian 2 bits ++ rest) = some (.float (.ofPattern .half bits), rest) := by
  have h := readHead_float 25 2 (by decide) hbits rest
  change readHead (0xf9 :: bigEndian 2 bits ++ rest) = _ at h
  rw [readUntagged, h]
  rfl

theorem readUntagged_single (bits : Nat) (hbits : bits < 256 ^ 4) :
    readUntagged inner? (0xfa :: bigEndian 4 bits ++ rest) = some (.float (.ofPattern .single bits), rest) := by
  have h := readHead_float 26 4 (by decide) hbits rest
  change readHead (0xfa :: bigEndian 4 bits ++ rest) = _ at h
  rw [readUntagged, h]
  rfl

theorem readUntagged_double (value : Double) :
    readUntagged inner? (0xfb :: bigEndian 8 value.bits.toNat ++ rest) = some (.float value, rest) := by
  have h := readHead_float 27 8 (by decide) value.bits.toNat_lt rest
  change readHead (0xfb :: bigEndian 8 value.bits.toNat ++ rest) = _ at h
  rw [readUntagged, h]
  simp

/-- A float is read as it was, in whatever width it was written: only what is no number comes
    back in one form. -/
theorem readUntagged_encodeFloat {value : Double} (hnan : value.datum = .nan → value = Double.nan) :
    readUntagged inner? (encodeFloat value ++ rest) = some (.float value, rest) := by
  unfold encodeFloat
  cases hdatum : value.datum with
  | nan =>
      rw [hnan hdatum]
      exact readUntagged_half inner? rest 0x7e00 (by decide)
  | inf negative =>
      rw [← Double.infinity_of_datum hdatum]
      cases negative with
      | false => exact readUntagged_half inner? rest 0x7c00 (by decide)
      | true => exact readUntagged_half inner? rest 0xfc00 (by decide)
  | finite negative coeff exp =>
      -- A narrower width is taken only where it keeps the number, so widening gives it back.
      simp only
      split
      · rename_i bits hbits
        rw [readUntagged_half inner? rest bits (Format.represent?_spec hbits).1,
          Double.ofPattern_of_represent? hdatum hbits]
      split
      · rename_i bits hbits
        rw [readUntagged_single inner? rest bits (Format.represent?_spec hbits).1,
          Double.ofPattern_of_represent? hdatum hbits]
      · exact readUntagged_double inner? rest value

end Floats

/-! ## Items -/

/-- An item that is written as it is read: without a tag, with numbers of 64 bits and texts in
    one piece, nested at most so deep, and with no longer lists than a reader accepts. -/
inductive Plain : (depth : Nat) → Item → Prop
  | uint {depth n : Nat} (hn : n < 2 ^ 64) : Plain depth (.uint n)
  | negative {depth n : Nat} (hn : n < 2 ^ 64) : Plain depth (.negative n)
  | text {depth : Nat} {content : Bytes} (hlength : content.length < 2 ^ 64) : Plain depth (.text [content])
  | simple {depth code : Nat} (hcode : code < 24) : Plain depth (.simple code)
  | float {depth : Nat} {value : Double} (hnan : value.datum = .nan → value = Double.nan) :
      Plain depth (.float value)
  | array {depth : Nat} {items : List Item} (hlength : items.length ≤ maxLength)
      (hitems : ∀ item ∈ items, Plain depth item) : Plain (depth + 1) (.array items)
  | map {depth : Nat} {entries : List Item} (hpairs : entries.length % 2 = 0)
      (hlength : entries.length / 2 ≤ maxLength) (hentries : ∀ item ∈ entries, Plain depth item) :
      Plain (depth + 1) (.map entries)

/-- Items that are read one by one are read one after the other. -/
theorem readMany_encodeAll {read : Reader Item} {items : List Item}
    (hread : ∀ item ∈ items, ∀ rest, read (item.encode ++ rest) = some (item, rest)) (rest : Bytes) :
    readMany read items.length (encodeAll items ++ rest) = some (items, rest) := by
  induction items with
  | nil => rfl
  | cons item items ih =>
      rw [List.length_cons, readMany, encodeAll, List.append_assoc, hread item List.mem_cons_self]
      simp [ih fun other hother => hread other (List.mem_cons_of_mem item hother)]

/-- The reader for what is inside an item. -/
def inside : (depth : Nat) → Option (Reader Item)
  | 0 => none
  | depth + 1 => some (readItem depth)

theorem readItem_of_untagged {depth : Nat} {item : Item} {bytes rest : Bytes} (htag : startsWithTag bytes = false)
    (hread : readUntagged (inside depth) bytes = some (item, rest)) : readItem depth bytes = some (item, rest) := by
  cases depth <;>
  · rw [readItem, readWith, htag]
    exact hread

/-- An item is read by its head, and then by what the head announces. -/
theorem readItem_of_head {depth major n : Nat} (hmajor : major < 8) (htag : major ≠ 6) (hn : n < 2 ^ 64)
    (hsimple : major = 7 → n < 24) {item : Item} {bytes rest : Bytes}
    (hread : ∀ info, info ≠ indefinite → (major = 7 → info = n) →
      readHead (head major n ++ bytes) = some (⟨major, info, n⟩, bytes) →
      readUntagged (inside depth) (head major n ++ bytes) = some (item, rest)) :
    readItem depth (head major n ++ bytes) = some (item, rest) := by
  obtain ⟨info, hdefinite, hinfo, hhead⟩ := readHead_head hmajor hn hsimple bytes
  refine readItem_of_untagged ?_ (hread info hdefinite hinfo hhead)
  rw [startsWithTag_head hmajor hn, decide_eq_false htag]

theorem startsWithTag_encodeFloat (value : Double) (rest : Bytes) :
    startsWithTag (encodeFloat value ++ rest) = false := by
  unfold encodeFloat
  split
  · rfl
  · rfl
  · split
    · rfl
    · split <;> rfl

/-- What is written is read back, and nothing behind it is touched. -/
theorem readItem_encode {depth : Nat} {item : Item} (h : Plain depth item) (rest : Bytes) :
    readItem depth (item.encode ++ rest) = some (item, rest) := by
  induction h generalizing rest with
  | uint hn =>
      rw [Item.encode]
      refine readItem_of_head (by decide) (by decide) hn (by simp) fun info _ _ hhead => ?_
      rw [readUntagged, hhead]
      rfl
  | negative hn =>
      rw [Item.encode]
      refine readItem_of_head (by decide) (by decide) hn (by simp) fun info _ _ hhead => ?_
      rw [readUntagged, hhead]
      rfl
  | @text _ content hlength =>
      rw [Item.encode, List.flatten_singleton, List.append_assoc]
      refine readItem_of_head (by decide) (by decide) hlength (by simp) fun info hdefinite _ hhead => ?_
      rw [readUntagged, hhead]
      simp [readString, hdefinite, readBytes_append]
  | @simple _ code hcode =>
      rw [Item.encode]
      refine readItem_of_head (by decide) (by decide) (by omega) (fun _ => hcode) fun info _ hinfo hhead => ?_
      rw [readUntagged, hhead, hinfo rfl]
      simp only [Option.bind_eq_bind, Option.bind_some]
      split <;> first | omega | rfl
  | float hnan => exact readItem_of_untagged (startsWithTag_encodeFloat _ rest) (readUntagged_encodeFloat _ rest hnan)
  | @array depth items hlength _ ih =>
      have hn : items.length < 2 ^ 64 := by
        unfold maxLength at hlength
        omega
      rw [Item.encode, List.append_assoc]
      refine readItem_of_head (by decide) (by decide) hn (by simp) fun info hdefinite _ hhead => ?_
      rw [readUntagged, hhead]
      simp [inside, readElements, hdefinite, hlength, readMany_encodeAll ih]
  | @map depth entries hpairs hlength _ ih =>
      have hn : entries.length / 2 < 2 ^ 64 := by
        unfold maxLength at hlength
        omega
      have hall : 2 * (entries.length / 2) = entries.length := by omega
      rw [Item.encode, List.append_assoc]
      refine readItem_of_head (by decide) (by decide) hn (by simp) fun info hdefinite _ hhead => ?_
      rw [readUntagged, hhead]
      simp [inside, readElements, hdefinite, hlength, hall, readMany_encodeAll ih]

/-- An item that is not nested too deep is decoded from its bytes. -/
theorem decode?_encode {item : Item} (h : Plain maxDepth item) : decode? item.encode = some item := by
  have hread := readItem_encode h []
  rw [List.append_nil] at hread
  rw [decode?, hread]

end SeaOfNodes.Cbor
