/-
  SeaOfNodes.Proofs.Listing.WireRoundTrip

  Listings survive the wire.  A reader gives back what was written, except that an integer
  constant that is not negative has lost its sign and that every float that is no number has
  become the same one.  Absent lists of blocks and of instructions are told from empty ones,
  and the fields of an operand that are left out are the ones whose default they have.
-/
import SeaOfNodes.Proofs.Listing.WireRecord

namespace SeaOfNodes

open Listing (TextFits)

/-! ## What is written and what comes back -/

/-- A constant as it is read: an integer has a sign only if it is negative, and there is one
    float that is no number. -/
def Literal.settled : Literal → Literal
  | .int value => if 0 ≤ value then .uint (UInt64.ofNat value.toInt.toNat) else .int value
  | .float value => if value.datum = .nan then .float .nan else .float value
  | literal => literal

/-- The constants that a listing may carry: integers, floats, texts, truth values and null. -/
def Literal.Portable : Literal → Prop
  | .str value => TextFits value
  | .bytes _ | .simple _ => False
  | _ => True

namespace Listing

open Cbor (Item Plain)

/-- An instruction as it is read. -/
def settledInstr (i : Instr) : Instr := { i with imms := i.imms.map Literal.settled }

/-- A block as it is read. -/
def settledBlock (block : Option Block) : Option Block := block.map (·.map settledInstr)

/-- The blocks of a listing as they are read. -/
def settledBody (body : Body) : Body := body.map (·.map settledBlock)

/-- A listing as it is read. -/
def settledListing (l : Listing) : Listing := { l with body := settledBody l.body }

/-- A list of listings as it is read. -/
def settledListings (listings : Option (List Listing)) : Option (List Listing) :=
  listings.map (·.map settledListing)

/-- An operand that can be written. -/
def PortableOperand (o : Operand) : Prop := TextFits o.selector

/-- An instruction that can be written, with lists that are not too long to be read. -/
structure PortableInstr (i : Instr) : Prop where
  op : TextFits i.op
  imms : AllPortable Literal.Portable i.imms
  args : i.args.length ≤ Cbor.maxLength
  trailing : AllPortable PortableOperand i.trailing

/-- A block that can be written. -/
def PortableBlock (block : Option Block) : Prop := OptionalPortable PortableInstr block

/-- Blocks that can be written. -/
def PortableBody (body : Body) : Prop := OptionalPortable PortableBlock body

/-- A listing that can be written. -/
structure PortableListing (l : Listing) : Prop where
  graph : TextFits l.graph
  body : PortableBody l.body

/-- Listings that can be written. -/
def PortableListings (listings : Option (List Listing)) : Prop := OptionalPortable PortableListing listings

/-! ## Scalars -/

/-- An integer is written by its sign, with a number of 63 bits that gives it back. -/
theorem intItem_eq (n : Int64) :
    (0 ≤ n ∧ ∃ m < 0x8000000000000000, intItem n = .uint m ∧ Int64.ofNat m = n ∧ n.toInt.toNat = m) ∨
      (¬ 0 ≤ n ∧ ∃ m < 0x8000000000000000, intItem n = .negative m ∧ Int64.ofInt (-1 - m) = n) := by
  have hlow := n.le_toInt
  have hhigh := n.toInt_lt
  unfold intItem
  split
  · rename_i hpos
    have hnonneg : 0 ≤ n.toInt := Int64.le_iff_toInt_le.1 hpos
    have hback : Int64.ofNat n.toInt.toNat = n := by
      rw [← Int64.ofInt_eq_ofNat, Int.toNat_of_nonneg hnonneg, Int64.ofInt_toInt]
    exact .inl ⟨hpos, n.toInt.toNat, by omega, rfl, hback, rfl⟩
  · rename_i hneg
    have hnegative : n.toInt < 0 := Int.not_le.1 fun h => hneg (Int64.le_iff_toInt_le.2 h)
    have hvalue : -1 - ((-1 - n.toInt).toNat : Int) = n.toInt := by omega
    refine .inr ⟨hneg, (-1 - n.toInt).toNat, by omega, rfl, ?_⟩
    rw [hvalue, Int64.ofInt_toInt]

@[simp] theorem readInt_intItem (n : Int64) : readInt (intItem n) = some n := by
  rcases intItem_eq n with ⟨-, m, hsmall, hitem, hback, -⟩ | ⟨-, m, hsmall, hitem, hback⟩
  · rw [hitem, readInt, untag]
    · exact (if_pos hsmall).trans (congrArg some hback)
    · simp
  · rw [hitem, readInt, untag]
    · exact (if_pos hsmall).trans (congrArg some hback)
    · simp

theorem plain_intItem (n : Int64) (depth : Nat) : Plain depth (intItem n) := by
  rcases intItem_eq n with ⟨-, m, hsmall, hitem, -⟩ | ⟨-, m, hsmall, hitem, -⟩
  · rw [hitem]
    exact .uint (by omega)
  · rw [hitem]
    exact .negative (by omega)

@[simp] theorem readByte_uint (b : UInt8) : readByte (.uint b.toNat) = some b := by
  have hsmall := b.toNat_lt
  simp [readByte, untag, hsmall]

/-- An integer that is not negative is written as it settles. -/
theorem intItem_of_nonneg {n : Int64} (h : 0 ≤ n) : intItem n = .uint (UInt64.ofNat n.toInt.toNat).toNat := by
  rcases intItem_eq n with ⟨-, m, hsmall, hitem, -, hvalue⟩ | ⟨hneg, -⟩
  · rw [hitem, hvalue, UInt64.toNat_ofNat_of_lt' (by change m < 2 ^ 64; omega)]
  · exact absurd h hneg

/-- A constant that is written is read as it settles. -/
theorem readLiteral_settled {l : Literal} (h : l.Portable) :
    readLiteral (literalItem l.settled) = some l.settled := by
  cases l with
  | int n =>
      rw [Literal.settled]
      split
      · rw [literalItem, readLiteral, UInt64.ofNat_toNat]
      · rename_i hneg
        rcases intItem_eq n with ⟨hpos, -⟩ | ⟨-, m, hsmall, hitem, hback⟩
        · exact absurd hpos hneg
        · rw [literalItem, hitem, readLiteral, if_pos hsmall, hback]
  | uint n => simp [Literal.settled, literalItem, readLiteral]
  | float value =>
      rw [Literal.settled]
      split <;> rfl
  | str value =>
      change (readChunkText [value.toUTF8.toList]).map Literal.str = _
      rw [readChunkText_toUTF8]
      rfl
  | bool value => cases value <;> rfl
  | bytes content => exact h.elim
  | simple code => exact h.elim
  | null => rfl

theorem plain_settled {l : Literal} (h : l.Portable) (depth : Nat) : Plain depth (literalItem l.settled) := by
  cases l with
  | int n =>
      rw [Literal.settled]
      split
      · exact .uint (UInt64.toNat_lt _)
      · exact plain_intItem n depth
  | uint n => exact .uint n.toNat_lt
  | float value =>
      rw [Literal.settled]
      split
      · exact .float fun _ => rfl
      · rename_i hnumber
        exact .float fun hnan => absurd hnan hnumber
  | str value => exact plain_ofString h depth
  | bool value => cases value <;> exact .simple (by decide)
  | bytes content => exact h.elim
  | simple code => exact h.elim
  | null => exact .simple (by decide)

/-- The bytes of a constant do not tell what has settled. -/
theorem encode_settled (l : Literal) : (literalItem l.settled).encode = (literalItem l).encode := by
  cases l with
  | int n =>
      rw [Literal.settled]
      split
      · rename_i hpos
        rw [literalItem, literalItem, intItem_of_nonneg hpos]
      · rfl
  | float value =>
      -- What is no number is written in one form, whatever its bits.
      rw [Literal.settled]
      split
      · rename_i hnan
        simp only [literalItem, Item.encode, Cbor.encodeFloat, hnan]
        rfl
      · rfl
  | uint | str | bool | bytes | simple | null => rfl

/-! ## Operands -/

/-- The names of the fields of all records. -/
def fieldNames : List String :=
  ["b", "k", "r", "s", "op", "args", "dest", "imms", "trailing", "insns", "graph", "blocks"]

theorem textFits_of_mem : ∀ name ∈ fieldNames, TextFits name := by decide

theorem plain_record_of_names {fields : Fields} {depth : Nat} (hlength : fields.length ≤ Cbor.maxLength)
    (hnames : ∀ name ∈ fields.names, name ∈ fieldNames) (hvalues : ∀ f ∈ fields, ∀ item ∈ f.2, Plain depth item) :
    Plain (depth + 1) (record fields) :=
  plain_record hlength (fun name hname => textFits_of_mem name (hnames name hname)) hvalues

/-- The fields of an operand. -/
def operandFields (o : Operand) : Fields :=
  [("b", writtenUnless (o.block = 0) (intItem o.block)),
   ("k", some (.uint o.kind.toNat)),
   ("r", writtenUnless (o.register = 0) (intItem o.register)),
   ("s", writtenUnless (o.selector = "") (.ofString o.selector))]

theorem operandItem_eq (o : Operand) : operandItem o = record (operandFields o) := by
  unfold operandItem record operandFields writtenUnless
  congr 1
  simp only [Fields.entries_cons]
  split <;> split <;> split <;> rfl

/-- No field of an operand is lost: what is left out has its default. -/
theorem readOperand_operandItem (o : Operand) : readOperand (operandItem o) = some o := by
  have hnodup : (operandFields o).names.Nodup := (by decide : ["b", "k", "r", "s"].Nodup)
  have hfields : readFields ["k", "r", "b", "s"] (record (operandFields o)) = some (operandFields o).written :=
    readFields_record hnodup (by decide : ∀ name ∈ ["b", "k", "r", "s"], name ∈ ["k", "r", "b", "s"])
  have hblock : field (operandFields o).written "b" readInt 0 = some o.block :=
    (field_written hnodup (.head _) _ _).trans (elim_writtenUnless readInt_intItem o.block 0)
  have hkind : field (operandFields o).written "k" readByte 0 = some o.kind :=
    (field_written hnodup (.tail _ (.head _)) _ _).trans (readByte_uint o.kind)
  have hregister : field (operandFields o).written "r" readInt 0 = some o.register :=
    (field_written hnodup (.tail _ (.tail _ (.head _))) _ _).trans
      (elim_writtenUnless readInt_intItem o.register 0)
  have hselector : field (operandFields o).written "s" readText "" = some o.selector :=
    (field_written hnodup (.tail _ (.tail _ (.tail _ (.head _)))) _ _).trans
      (elim_writtenUnless readText_ofString o.selector "")
  rw [operandItem_eq, readOperand, hfields]
  simp [hkind, hregister, hblock, hselector]

theorem plain_operandItem {o : Operand} (h : PortableOperand o) (depth : Nat) :
    Plain (depth + 1) (operandItem o) := by
  have hnames : ∀ name ∈ (operandFields o).names, name ∈ fieldNames :=
    (by decide : ∀ name ∈ ["b", "k", "r", "s"], name ∈ fieldNames)
  rw [operandItem_eq]
  refine plain_record_of_names (show 4 ≤ Cbor.maxLength by decide) hnames ?_
  simp only [operandFields, List.forall_mem_cons, Option.mem_some_iff, forall_eq']
  exact ⟨plain_writtenUnless (plain_intItem _ _), .uint (Nat.lt_trans o.kind.toNat_lt (by decide)),
    plain_writtenUnless (plain_intItem _ _), plain_writtenUnless (plain_ofString h _), by simp⟩

/-! ## Instructions -/

/-- The fields of an instruction. -/
def instrFields (i : Instr) : Fields :=
  [("op", some (.ofString i.op)),
   ("args", listField (i.args.map intItem)),
   ("dest", some (intItem i.dest)),
   ("imms", listField (i.imms.map literalItem)),
   ("trailing", listField (i.trailing.map operandItem))]

theorem entries_listField (name : String) (items : List Item) :
    (listField items).elim [] (entry name) = listEntry name items := by
  cases items <;> rfl

theorem instrItem_eq (i : Instr) : instrItem i = record (instrFields i) := by
  unfold instrItem record instrFields
  congr 1
  simp only [Fields.entries_cons, entries_listField, Option.elim_some, List.append_assoc]
  simp [Fields.entries]

theorem nodup_instrFields (i : Instr) : (instrFields i).names.Nodup :=
  (by decide : ["op", "args", "dest", "imms", "trailing"].Nodup)

theorem readFields_instrItem (i : Instr) :
    readFields ["op", "dest", "imms", "args", "trailing"] (instrItem i) = some (instrFields i).written := by
  rw [instrItem_eq]
  exact readFields_record (nodup_instrFields i)
    (by decide : ∀ name ∈ ["op", "args", "dest", "imms", "trailing"],
      name ∈ ["op", "dest", "imms", "args", "trailing"])

/-- An instruction is read as it was if its constants are. -/
theorem readInstr_instrItem {i : Instr} (h : ∀ l ∈ i.imms, readLiteral (literalItem l) = some l) :
    readInstr (instrItem i) = some i := by
  have hnodup := nodup_instrFields i
  have hop : field (instrFields i).written "op" readText "" = some i.op :=
    (field_written hnodup (.head _) _ _).trans (readText_ofString i.op)
  have hargs : field (instrFields i).written "args" (readList readInt) none = some (nonempty? i.args) :=
    (field_written hnodup (.tail _ (.head _)) _ _).trans (elim_listField fun n _ => readInt_intItem n)
  have hdest : field (instrFields i).written "dest" readInt 0 = some i.dest :=
    (field_written hnodup (.tail _ (.tail _ (.head _))) _ _).trans (readInt_intItem i.dest)
  have himms : field (instrFields i).written "imms" (readList readLiteral) none = some (nonempty? i.imms) :=
    (field_written hnodup (.tail _ (.tail _ (.tail _ (.head _)))) _ _).trans (elim_listField h)
  have htrailing : field (instrFields i).written "trailing" (readList readOperand) none
      = some (nonempty? i.trailing) :=
    (field_written hnodup (.tail _ (.tail _ (.tail _ (.tail _ (.head _))))) _ _).trans
      (elim_listField fun o _ => readOperand_operandItem o)
  rw [readInstr, readFields_instrItem]
  simp [hop, hargs, hdest, himms, htrailing]

theorem readInstr_settled {i : Instr} (h : PortableInstr i) :
    readInstr (instrItem (settledInstr i)) = some (settledInstr i) :=
  readInstr_instrItem (List.forall_mem_map.2 fun l hl => readLiteral_settled (h.imms.2 l hl))

theorem plain_listField {α : Type} {write : α → Item} {portable : α → Prop} {xs : List α} {depth : Nat}
    (hxs : AllPortable portable xs) (h : ∀ x, portable x → Plain depth (write x)) :
    ∀ item ∈ listField (xs.map write), Plain (depth + 1) item := plain_writtenUnless (plain_array hxs h)

theorem plain_instrItem {i : Instr} (h : PortableInstr i) (depth : Nat) :
    Plain (depth + 3) (instrItem (settledInstr i)) := by
  have hnames : ∀ name ∈ (instrFields (settledInstr i)).names, name ∈ fieldNames :=
    (by decide : ∀ name ∈ ["op", "args", "dest", "imms", "trailing"], name ∈ fieldNames)
  -- The list of operands nests deepest: the map of one, their list, the map of the instruction.
  have hargs : AllPortable (fun _ => True) i.args := ⟨h.args, fun _ _ => trivial⟩
  have himms : ∀ item ∈ listField ((i.imms.map Literal.settled).map literalItem), Plain (depth + 2) item := by
    rw [List.map_map]
    exact plain_listField h.imms fun l hl => plain_settled hl (depth + 1)
  rw [instrItem_eq]
  refine plain_record_of_names (show 5 ≤ Cbor.maxLength by decide) hnames ?_
  simp only [instrFields, List.forall_mem_cons, Option.mem_some_iff, forall_eq']
  exact ⟨plain_ofString h.op _, plain_listField hargs fun n _ => plain_intItem n (depth + 1),
    plain_intItem i.dest _, himms, plain_listField h.trailing fun o ho => plain_operandItem ho depth, by simp⟩

theorem encode_settledInstr (i : Instr) : (instrItem (settledInstr i)).encode = (instrItem i).encode := by
  rw [instrItem_eq, instrItem_eq]
  refine encode_record ?_
  simp only [instrFields, settledInstr, List.map_cons, Prod.map_apply, encode_listField encode_settled]

/-! ## Blocks -/

theorem blockItem_eq (block : Option Block) :
    blockItem block = record [("insns", some (optionalItem instrItem block))] := by
  cases block <;> rfl

theorem readBlock_settled {block : Option Block} (h : PortableBlock block) :
    readBlock (blockItem (settledBlock block)) = some (settledBlock block) := by
  let fields : Fields := [("insns", some (optionalItem instrItem (settledBlock block)))]
  have hnodup : fields.names.Nodup := List.nodup_singleton "insns"
  have hfields : readFields ["insns"] (record fields) = some fields.written :=
    readFields_record hnodup fun name hname => hname
  have hinsns : readList readInstr (optionalItem instrItem (settledBlock block)) = some (settledBlock block) :=
    readList_optionalItem (h.forall_settled fun i hi => readInstr_settled hi)
  rw [blockItem_eq, readBlock, hfields]
  exact (field_written hnodup (.head _) (readList readInstr) none).trans hinsns

theorem plain_blockItem {block : Option Block} (h : PortableBlock block) (depth : Nat) :
    Plain (depth + 5) (blockItem (settledBlock block)) := by
  rw [blockItem_eq]
  refine plain_record_of_names (show 1 ≤ Cbor.maxLength by decide)
    (by decide : ∀ name ∈ ["insns"], name ∈ fieldNames) ?_
  simp only [List.forall_mem_singleton, Option.mem_some_iff, forall_eq']
  exact plain_optionalItem h fun i hi => plain_instrItem hi depth

theorem encode_settledBlock (block : Option Block) :
    (blockItem (settledBlock block)).encode = (blockItem block).encode := by
  rw [blockItem_eq, blockItem_eq]
  refine encode_record ?_
  simp [settledBlock, encode_optionalItem encode_settledInstr]

theorem bodyItem_eq (body : Body) : bodyItem body = optionalItem blockItem body := by
  cases body <;> rfl

theorem readBody_settled {body : Body} (h : PortableBody body) :
    readBody (bodyItem (settledBody body)) = some (settledBody body) := by
  rw [bodyItem_eq]
  exact readList_optionalItem (h.forall_settled fun block hblock => readBlock_settled hblock)

theorem plain_bodyItem {body : Body} (h : PortableBody body) (depth : Nat) :
    Plain (depth + 6) (bodyItem (settledBody body)) := by
  rw [bodyItem_eq]
  exact plain_optionalItem h fun block hblock => plain_blockItem hblock depth

theorem encode_settledBody (body : Body) : (bodyItem (settledBody body)).encode = (bodyItem body).encode := by
  rw [bodyItem_eq, bodyItem_eq]
  exact encode_optionalItem encode_settledBlock body

/-! ## Listings -/

/-- The fields of a listing. -/
def listingFields (l : Listing) : Fields :=
  [("graph", some (.ofString l.graph)), ("blocks", some (bodyItem l.body))]

theorem listingItem_eq (l : Listing) : listingItem l = record (listingFields l) := rfl

theorem readListing_settled {l : Listing} (h : PortableListing l) :
    readListing (listingItem (settledListing l)) = some (settledListing l) := by
  have hnodup : (listingFields (settledListing l)).names.Nodup := (by decide : ["graph", "blocks"].Nodup)
  have hgraph : field (listingFields (settledListing l)).written "graph" readText "" = some l.graph :=
    (field_written hnodup (.head _) _ _).trans (readText_ofString l.graph)
  have hbody : field (listingFields (settledListing l)).written "blocks" readBody none
      = some (settledBody l.body) :=
    (field_written hnodup (.tail _ (.head _)) _ _).trans (readBody_settled h.body)
  have hfields : readFields ["graph", "blocks"] (record (listingFields (settledListing l)))
      = some (listingFields (settledListing l)).written := readFields_record hnodup fun name hname => hname
  rw [listingItem_eq, readListing, hfields]
  simp only [Option.bind_eq_bind, Option.bind_some, hgraph, hbody]
  rfl

theorem plain_listingItem {l : Listing} (h : PortableListing l) (depth : Nat) :
    Plain (depth + 7) (listingItem (settledListing l)) := by
  have hnames : ∀ name ∈ (listingFields (settledListing l)).names, name ∈ fieldNames :=
    (by decide : ∀ name ∈ ["graph", "blocks"], name ∈ fieldNames)
  rw [listingItem_eq]
  refine plain_record_of_names (show 2 ≤ Cbor.maxLength by decide) hnames ?_
  simp only [listingFields, List.forall_mem_cons, Option.mem_some_iff, forall_eq']
  exact ⟨plain_ofString h.graph _, plain_bodyItem h.body depth, by simp⟩

theorem encode_settledListing (l : Listing) :
    (listingItem (settledListing l)).encode = (listingItem l).encode := by
  rw [listingItem_eq, listingItem_eq]
  refine encode_record ?_
  simp [listingFields, settledListing, encode_settledBody]

theorem encodeListings_eq (listings : Option (List Listing)) :
    encodeListings listings = (optionalItem listingItem listings).encode := by
  cases listings <;> rfl

theorem decodeBody?_encodeBody {body : Body} (h : PortableBody body) :
    decodeBody? (encodeBody body) = some (settledBody body) := by
  have hplain : Plain Cbor.maxDepth (bodyItem (settledBody body)) := plain_bodyItem h 26
  -- The bytes are those of what settles, and that is what a reader can give back.
  rw [encodeBody, ← encode_settledBody, decodeBody?, Cbor.decode?_encode hplain]
  exact readBody_settled h

theorem decodeListings?_encodeListings {listings : Option (List Listing)} (h : PortableListings listings) :
    decodeListings? (encodeListings listings) = some (settledListings listings) := by
  have hplain : Plain Cbor.maxDepth (optionalItem listingItem (settledListings listings)) :=
    plain_optionalItem h fun l hl => plain_listingItem hl 24
  rw [encodeListings_eq, ← encode_optionalItem encode_settledListing, decodeListings?]
  change (Cbor.decode? (optionalItem listingItem (settledListings listings)).encode).bind _ = _
  rw [Cbor.decode?_encode hplain]
  exact readList_optionalItem (h.forall_settled fun l hl => readListing_settled hl)

/-- The bytes tell values apart that do not settle to the same. -/
theorem bytes_eq_iff {α : Type} {encode : α → Cbor.Bytes} {decode? : Cbor.Bytes → Option α} {settle : α → α}
    (hencode : ∀ x, encode (settle x) = encode x) {a b : α} (ha : decode? (encode a) = some (settle a))
    (hb : decode? (encode b) = some (settle b)) : encode a = encode b ↔ settle a = settle b := by
  constructor
  · intro heq
    rw [heq, hb] at ha
    exact (Option.some.inj ha).symm
  · intro heq
    rw [← hencode a, heq, hencode b]

/-- The lists of an instruction that are empty are absent from what is written for it. -/
def EmptyListsAbsent (i : Instr) : Prop :=
  ∃ fields, readFields ["op", "dest", "imms", "args", "trailing"] (instrItem i) = some fields ∧
    (fields.lookup "imms" = none ↔ i.imms = []) ∧ (fields.lookup "args" = none ↔ i.args = []) ∧
    (fields.lookup "trailing" = none ↔ i.trailing = [])

theorem listField_eq_none {items : List Item} : listField items = none ↔ items = [] := by
  cases items <;> simp [listField, writtenUnless]

theorem emptyListsAbsent (i : Instr) : EmptyListsAbsent i := by
  have hnodup := nodup_instrFields i
  have hargs : (instrFields i).written.lookup "args" = listField (i.args.map intItem) :=
    Fields.lookup_written hnodup (.tail _ (.head _))
  have himms : (instrFields i).written.lookup "imms" = listField (i.imms.map literalItem) :=
    Fields.lookup_written hnodup (.tail _ (.tail _ (.tail _ (.head _))))
  have htrailing : (instrFields i).written.lookup "trailing" = listField (i.trailing.map operandItem) :=
    Fields.lookup_written hnodup (.tail _ (.tail _ (.tail _ (.tail _ (.head _)))))
  refine ⟨_, readFields_instrItem i, ?_, ?_, ?_⟩
  · rw [himms, listField_eq_none, List.map_eq_nil_iff]
  · rw [hargs, listField_eq_none, List.map_eq_nil_iff]
  · rw [htrailing, listField_eq_none, List.map_eq_nil_iff]

/-- Blocks, and lists of named listings, are read from their bytes as they were, but for the
    signs and the floats that settle; written again they give the same bytes; and the bytes are
    the same only for values that settle to the same. -/
theorem wire_round_trip {body body' : Body} {listings listings' : Option (List Listing)}
    (hbody : PortableBody body) (hbody' : PortableBody body') (hlistings : PortableListings listings)
    (hlistings' : PortableListings listings') :
    (decodeBody? (encodeBody body) = some (settledBody body) ∧
      encodeBody (settledBody body) = encodeBody body ∧
      (encodeBody body = encodeBody body' ↔ settledBody body = settledBody body')) ∧
    (decodeListings? (encodeListings listings) = some (settledListings listings) ∧
      encodeListings (settledListings listings) = encodeListings listings ∧
      (encodeListings listings = encodeListings listings' ↔
        settledListings listings = settledListings listings')) ∧
    ∀ i : Instr, EmptyListsAbsent i := by
  have hlistingsEncode : ∀ ls, encodeListings (settledListings ls) = encodeListings ls := by
    intro ls
    rw [encodeListings_eq, encodeListings_eq]
    exact encode_optionalItem encode_settledListing ls
  refine ⟨⟨decodeBody?_encodeBody hbody, encode_settledBody body, ?_⟩,
    ⟨decodeListings?_encodeListings hlistings, hlistingsEncode listings, ?_⟩, emptyListsAbsent⟩
  · exact bytes_eq_iff encode_settledBody (decodeBody?_encodeBody hbody) (decodeBody?_encodeBody hbody')
  · exact bytes_eq_iff hlistingsEncode (decodeListings?_encodeListings hlistings)
      (decodeListings?_encodeListings hlistings')

/-- An instruction whose fields have the values that are easily lost: register 0, an empty
    name, block 0, and constants that settle. -/
def edgeInstr : Instr :=
  ⟨"select", 0, [.int 7, .int (-7), .float ⟨0x7ff8000000000000⟩, .str "", .bool false, .null], [0],
    [.ofRegister 0, .ofBlock 0, .ofSelector ""]⟩

/-- A jump, an instruction without lists, in blocks after an absent and an empty one. -/
def edgeBody : Body := some [none, some [], some [⟨"jump", noRegister, [], [], [.ofBlock 0]⟩], some [edgeInstr]]

theorem portable_edgeBody : PortableBody edgeBody := by
  have hedge : PortableInstr edgeInstr := by
    refine ⟨by decide, ⟨by decide, ?_⟩, by decide, ⟨by decide, ?_⟩⟩
    · simp [edgeInstr, Literal.Portable, TextFits]
    · simp [edgeInstr, PortableOperand, TextFits, Operand.ofRegister, Operand.ofBlock, Operand.ofSelector]
  have hjump : PortableInstr ⟨"jump", noRegister, [], [], [.ofBlock 0]⟩ := by
    refine ⟨by decide, ⟨by decide, by simp⟩, by decide, ⟨by decide, ?_⟩⟩
    simp [PortableOperand, TextFits, Operand.ofBlock]
  simp [PortableBody, edgeBody, PortableBlock, OptionalPortable, AllPortable, Cbor.maxLength, hedge, hjump]

theorem wire_round_trip_edgeBody :
    (PortableBody edgeBody ∧ PortableBody (some [some []]) ∧ PortableListings (some [⟨"f", edgeBody⟩]) ∧
      PortableListings (some [⟨"f", none⟩])) ∧
    decodeBody? (encodeBody edgeBody) = some (some [none, some [],
      some [⟨"jump", noRegister, [], [], [.ofBlock 0]⟩],
      some [⟨"select", 0, [.uint 7, .int (-7), .float .nan, .str "", .bool false, .null], [0],
        [.ofRegister 0, .ofBlock 0, .ofSelector ""]⟩]]) ∧
    encodeBody edgeBody ≠ encodeBody (some [some []]) ∧
    encodeListings (some [⟨"f", edgeBody⟩]) ≠ encodeListings (some [⟨"f", none⟩]) := by
  have hempty : PortableBody (some [some []]) := by
    simp [PortableBody, PortableBlock, OptionalPortable, AllPortable, Cbor.maxLength]
  have hlistings : PortableListings (some [⟨"f", edgeBody⟩]) := by
    simp only [PortableListings, OptionalPortable, AllPortable, Option.mem_some_iff, forall_eq',
      List.forall_mem_singleton]
    exact ⟨by decide, ⟨by decide, portable_edgeBody⟩⟩
  have hnone : PortableListings (some [⟨"f", none⟩]) := by
    simp only [PortableListings, OptionalPortable, AllPortable, Option.mem_some_iff, forall_eq',
      List.forall_mem_singleton]
    exact ⟨by decide, ⟨by decide, by simp [PortableBody, OptionalPortable]⟩⟩
  obtain ⟨⟨hread, -, hbytes⟩, ⟨-, -, hbytes'⟩, -⟩ := wire_round_trip portable_edgeBody hempty hlistings hnone
  refine ⟨⟨portable_edgeBody, hempty, hlistings, hnone⟩, hread.trans (by decide +kernel), ?_, ?_⟩
  · exact fun heq => absurd (hbytes.1 heq) (by decide +kernel)
  · exact fun heq => absurd (hbytes'.1 heq) (by decide +kernel)

end Listing

end SeaOfNodes
