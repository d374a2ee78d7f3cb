/-
  SeaOfNodes.Proofs.Listing.WireRecord

  The shapes that listings are written in: texts, lists and records.  A record is a map with
  a text key for every field that is not left out.  It is read field by field: a field that
  was written gives what was written, and a field that was left out its default.
-/
import SeaOfNodes.Listing.Wire
import SeaOfNodes.Proofs.Cbor.RoundTrip
import SeaOfNodes.Proofs.Text.Bytes

namespace SeaOfNodes.Listing

open Cbor (Item Plain)

/-! ## Texts -/

theorem readUtf8_toUTF8 (s : String) : readUtf8 s.toUTF8.toList = some s := by
  rw [readUtf8, Text.toList_eq, Array.toArray_toList, String.fromUTF8?]
  exact dif_pos s.isValidUTF8

theorem readChunkText_toUTF8 (s : String) : readChunkText [s.toUTF8.toList] = some s := by
  rw [readChunkText, List.mapM_cons, readUtf8_toUTF8]
  simp [String.join_cons]

@[simp] theorem readText_ofString (s : String) : readText (.ofString s) = some s := readChunkText_toUTF8 s

/-- The length of a text is a number that a head can hold. -/
def TextFits (s : String) : Prop := s.utf8ByteSize < 2 ^ 64

instance (s : String) : Decidable (TextFits s) := inferInstanceAs (Decidable (s.utf8ByteSize < 2 ^ 64))

theorem plain_ofString {s : String} (h : TextFits s) (depth : Nat) : Plain depth (.ofString s) := by
  refine .text ?_
  rw [Text.toList_eq]
  exact h

/-! ## Lists -/

section Lists

variable {α : Type} {read : Item → Option α} {write : α → Item}

/-- Whether a list is short enough to be read, and all its elements can be written. -/
def AllPortable (portable : α → Prop) (xs : List α) : Prop :=
  xs.length ≤ Cbor.maxLength ∧ ∀ x ∈ xs, portable x

theorem mapM_map_write {xs : List α} (h : ∀ x ∈ xs, read (write x) = some x) :
    (xs.map write).mapM read = some xs := by
  induction xs with
  | nil => rfl
  | cons x xs ih =>
      rw [List.map_cons, List.mapM_cons, h x List.mem_cons_self, ih fun y hy => h y (List.mem_cons_of_mem x hy)]
      rfl

/-- A list is read if its elements are. -/
theorem readList_array {xs : List α} (h : ∀ x ∈ xs, read (write x) = some x) :
    readList read (.array (xs.map write)) = some (some xs) := by
  have huntag : untag (.array (xs.map write)) = some (.array (xs.map write)) := by simp [untag]
  rw [readList, huntag]
  change ((xs.map write).mapM read).map some = _
  rw [mapM_map_write h, Option.map_some]

theorem plain_array {portable : α → Prop} {xs : List α} {depth : Nat} (hxs : AllPortable portable xs)
    (h : ∀ x, portable x → Plain depth (write x)) : Plain (depth + 1) (.array (xs.map write)) := by
  refine .array (by simpa using hxs.1) ?_
  simp only [List.mem_map, forall_exists_index, and_imp, forall_apply_eq_imp_iff₂]
  exact fun x hx => h x (hxs.2 x hx)

/-- Elements that are written alike make lists that are written alike. -/
theorem encode_array {settle : α → α} (h : ∀ x, (write (settle x)).encode = (write x).encode) (xs : List α) :
    (Item.array ((xs.map settle).map write)).encode = (Item.array (xs.map write)).encode := by
  have hall : Cbor.encodeAll ((xs.map settle).map write) = Cbor.encodeAll (xs.map write) := by
    induction xs with
    | nil => rfl
    | cons x xs ih => simp only [List.map_cons, Cbor.encodeAll, h, ih]
  simp only [Item.encode, List.length_map, hall]

/-- A list that may be absent. -/
def optionalItem (write : α → Item) (xs? : Option (List α)) : Item :=
  xs?.elim .null fun xs => .array (xs.map write)

/-- Whether a list is absent, or can be written. -/
def OptionalPortable (portable : α → Prop) (xs? : Option (List α)) : Prop := ∀ xs ∈ xs?, AllPortable portable xs

/-- An absent list is told from an empty one. -/
theorem readList_optionalItem {xs? : Option (List α)} (h : ∀ xs ∈ xs?, ∀ x ∈ xs, read (write x) = some x) :
    readList read (optionalItem write xs?) = some xs? := by
  cases xs? with
  | none => rfl
  | some xs => exact readList_array (h xs rfl)

theorem plain_optionalItem {portable : α → Prop} {xs? : Option (List α)} {depth : Nat}
    (hxs : OptionalPortable portable xs?) {settle : α → α} (h : ∀ x, portable x → Plain depth (write (settle x))) :
    Plain (depth + 1) (optionalItem write (xs?.map (·.map settle))) := by
  cases xs? with
  | none => exact .simple (by decide)
  | some xs =>
      change Plain _ (.array ((xs.map settle).map write))
      rw [List.map_map]
      exact plain_array (hxs xs rfl) h

theorem encode_optionalItem {settle : α → α} (h : ∀ x, (write (settle x)).encode = (write x).encode)
    (xs? : Option (List α)) :
    (optionalItem write (xs?.map (·.map settle))).encode = (optionalItem write xs?).encode := by
  cases xs? with
  | none => rfl
  | some xs => exact encode_array h xs

/-- The elements of a list that settles are settled. -/
theorem OptionalPortable.forall_settled {portable P : α → Prop} {xs? : Option (List α)} {settle : α → α}
    (hxs : OptionalPortable portable xs?) (h : ∀ x, portable x → P (settle x)) :
    ∀ ys ∈ xs?.map (·.map settle), ∀ y ∈ ys, P y := by
  intro ys hys y hy
  obtain ⟨xs, hmem, rfl⟩ := Option.map_eq_some_iff.1 hys
  obtain ⟨x, hx, rfl⟩ := List.mem_map.1 hy
  exact h x ((hxs xs hmem).2 x hx)

end Lists

/-! ## Records -/

/-- The fields of a record, each with what is written for it, or nothing if it is left out. -/
abbrev Fields := List (String × Option Item)

namespace Fields

/-- The entries of the map. -/
def entries (fields : Fields) : List Item := fields.flatMap fun f => f.2.elim [] (entry f.1)

/-- The fields that are written. -/
def written (fields : Fields) : List (String × Item) := fields.filterMap fun f => f.2.map (f.1, ·)

/-- The names of the fields, in the order they are written. -/
def names (fields : Fields) : List String := fields.map Prod.fst

theorem entries_cons (f : String × Option Item) (fields : Fields) :
    entries (f :: fields) = f.2.elim [] (entry f.1) ++ fields.entries := rfl

@[simp] theorem entries_none (name : String) (fields : Fields) :
    entries ((name, none) :: fields) = fields.entries := rfl

@[simp] theorem entries_some (name : String) (item : Item) (fields : Fields) :
    entries ((name, some item) :: fields) = .ofString name :: item :: fields.entries := rfl

@[simp] theorem written_none (name : String) (fields : Fields) :
    written ((name, none) :: fields) = fields.written := rfl

@[simp] theorem written_some (name : String) (item : Item) (fields : Fields) :
    written ((name, some item) :: fields) = (name, item) :: fields.written := rfl

@[simp] theorem names_cons (f : String × Option Item) (fields : Fields) :
    names (f :: fields) = f.1 :: fields.names := rfl

theorem matchField_of_mem {others : List String} {name : String} (h : name ∈ others) :
    matchField others name = some name := by
  have hsome : (others.find? (· == name)).isSome := List.find?_isSome.2 ⟨name, h, BEq.rfl⟩
  obtain ⟨found, hfound⟩ := Option.isSome_iff_exists.1 hsome
  have heq : (found == name) = true := List.find?_some (p := (· == name)) hfound
  rw [matchField, hfound, eq_of_beq heq, Option.some_or]

/-- The fields of a map are found, in whatever order they were written. -/
theorem collectFields_entries {fields : Fields} (hnodup : fields.names.Nodup) {known : List String}
    (hknown : ∀ name ∈ fields.names, name ∈ known) : collectFields known fields.entries = some fields.written := by
  induction fields generalizing known with
  | nil => rfl
  | cons f fields ih =>
      obtain ⟨name, item?⟩ := f
      obtain ⟨hfresh, hrestNodup⟩ := List.nodup_cons.1 hnodup
      obtain ⟨hname, hothers⟩ := List.forall_mem_cons.1 hknown
      cases item? with
      | none => exact ih hrestNodup hothers
      | some item =>
          -- A name that was found is not looked for again; the others are still open.
          have hopen : ∀ other ∈ names fields, other ∈ known.erase name := by
            intro other hother
            have hne : other ≠ name := by
              rintro rfl
              exact hfresh hother
            exact (List.mem_erase_of_ne hne).2 (hothers other hother)
          have hrest := ih hrestNodup hopen
          rw [entries_some, written_some, Item.ofString, collectFields, readChunkText_toUTF8]
          simp [matchField_of_mem hname, hrest]

theorem lookup_written_of_notMem {fields : Fields} {name : String} (h : name ∉ fields.names) :
    fields.written.lookup name = none := by
  induction fields with
  | nil => rfl
  | cons f fields ih =>
      obtain ⟨other, item?⟩ := f
      obtain ⟨hne, hrest⟩ := not_or.1 (mt List.mem_cons.2 h)
      cases item? with
      | none => exact ih hrest
      | some item => rw [written_some, List.lookup_cons, beq_false_of_ne hne, ih hrest]

theorem lookup_written {fields : Fields} (hnodup : fields.names.Nodup) {name : String} {item? : Option Item}
    (h : (name, item?) ∈ fields) : fields.written.lookup name = item? := by
  induction fields with
  | nil => exact absurd h List.not_mem_nil
  | cons f fields ih =>
      obtain ⟨other, value?⟩ := f
      obtain ⟨hfresh, hrestNodup⟩ := List.nodup_cons.1 hnodup
      rcases List.mem_cons.1 h with heq | hrest
      · obtain ⟨rfl, rfl⟩ := Prod.mk.inj heq
        cases item? with
        | none =>
            rw [written_none]
            exact lookup_written_of_notMem hfresh
        | some item => rw [written_some, List.lookup_cons, BEq.rfl]
      · have hne : name ≠ other := by
          rintro rfl
          exact hfresh (List.mem_map.2 ⟨(name, item?), hrest, rfl⟩)
        cases value? with
        | none => exact ih hrestNodup hrest
        | some item => rw [written_some, List.lookup_cons, beq_false_of_ne hne, ih hrestNodup hrest]

theorem length_entries (fields : Fields) : fields.entries.length = 2 * fields.written.length := by
  induction fields with
  | nil => rfl
  | cons f fields ih =>
      obtain ⟨name, item?⟩ := f
      cases item? with
      | none => exact ih
      | some item =>
          rw [entries_some, written_some, List.length_cons, List.length_cons, List.length_cons, ih]
          omega

theorem length_written_le (fields : Fields) : fields.written.length ≤ fields.length := List.length_filterMap_le _ _

theorem forall_mem_entries {fields : Fields} {P : Item → Prop} (hnames : ∀ name ∈ fields.names, P (.ofString name))
    (hvalues : ∀ f ∈ fields, ∀ item ∈ f.2, P item) : ∀ item ∈ fields.entries, P item := by
  intro item hitem
  obtain ⟨f, hf, hmem⟩ := List.mem_flatMap.1 hitem
  cases hsome : f.2 with
  | none => simp [hsome] at hmem
  | some value =>
      rw [hsome, Option.elim_some, entry, List.mem_pair] at hmem
      rcases hmem with rfl | rfl
      · exact hnames f.1 (List.mem_map.2 ⟨f, hf, rfl⟩)
      · exact hvalues f hf item hsome

end Fields

/-- The map of a record. -/
def record (fields : Fields) : Item := .map fields.entries

theorem readFields_record {fields : Fields} (hnodup : fields.names.Nodup) {known : List String}
    (hknown : ∀ name ∈ fields.names, name ∈ known) : readFields known (record fields) = some fields.written :=
  Fields.collectFields_entries hnodup hknown

theorem field_written {α : Type} {fields : Fields} (hnodup : fields.names.Nodup) {name : String}
    {item? : Option Item} (h : (name, item?) ∈ fields) (read : Item → Option α) (missing : α) :
    field fields.written name read missing = item?.elim (some missing) read := by
  rw [field, Fields.lookup_written hnodup h]
  cases item? <;> rfl

theorem plain_record {fields : Fields} {depth : Nat} (hlength : fields.length ≤ Cbor.maxLength)
    (hnames : ∀ name ∈ fields.names, TextFits name) (hvalues : ∀ f ∈ fields, ∀ item ∈ f.2, Plain depth item) :
    Plain (depth + 1) (record fields) := by
  have hentries := fields.length_entries
  have hwritten := fields.length_written_le
  exact .map (by omega) (by omega)
    (Fields.forall_mem_entries (fun name hname => plain_ofString (hnames name hname) depth) hvalues)

/-- Records whose fields are written alike are written alike. -/
theorem encode_record {fields others : Fields}
    (h : fields.map (Prod.map id (Option.map Item.encode)) = others.map (Prod.map id (Option.map Item.encode))) :
    (record fields).encode = (record others).encode := by
  have hall : fields.written.length = others.written.length ∧
      Cbor.encodeAll fields.entries = Cbor.encodeAll others.entries := by
    induction fields generalizing others with
    | nil =>
        obtain rfl : others = [] := by simpa using h.symm
        exact ⟨rfl, rfl⟩
    | cons f fields ih =>
        cases others with
        | nil => simp at h
        | cons g others =>
            obtain ⟨name, item?⟩ := f
            obtain ⟨name', item'?⟩ := g
            simp only [List.map_cons, List.cons.injEq, Prod.map_apply, id_eq, Prod.mk.injEq] at h
            obtain ⟨⟨rfl, hvalue⟩, hrest⟩ := h
            obtain ⟨hlength, hencode⟩ := ih hrest
            cases item? <;> cases item'? <;> simp_all [Cbor.encodeAll]
  simp only [record, Item.encode, Fields.length_entries, hall]

/-! ## Fields that are left out -/

/-- A field that is left out in one case. -/
def writtenUnless (c : Prop) [Decidable c] (item : Item) : Option Item := if c then none else some item

theorem plain_writtenUnless {c : Prop} [Decidable c] {item : Item} {depth : Nat} (h : Plain depth item) :
    ∀ value ∈ writtenUnless c item, Plain depth value := by
  intro value hvalue
  unfold writtenUnless at hvalue
  split at hvalue
  · exact absurd hvalue (Option.not_mem_none value)
  · exact Option.some.inj hvalue ▸ h

/-- A field that is left out if it has its default is read as it was. -/
theorem elim_writtenUnless {α : Type} [DecidableEq α] {read : Item → Option α} {write : α → Item}
    (h : ∀ x, read (write x) = some x) (x missing : α) :
    (writtenUnless (x = missing) (write x)).elim (some missing) read = some x := by
  unfold writtenUnless
  split
  · rename_i heq
    rw [heq]
    rfl
  · exact h x

/-- A field for a list, left out if the list is empty. -/
def listField (items : List Item) : Option Item := writtenUnless (items = []) (.array items)

/-- A list that is absent if it is empty. -/
def nonempty? {α : Type} (xs : List α) : Option (List α) := if xs.isEmpty then none else some xs

@[simp] theorem getD_nonempty? {α : Type} (xs : List α) : (nonempty? xs).getD [] = xs := by
  cases xs <;> rfl

/-- An empty list comes back as an absent one. -/
theorem elim_listField {α : Type} {read : Item → Option α} {write : α → Item} {xs : List α}
    (h : ∀ x ∈ xs, read (write x) = some x) :
    (listField (xs.map write)).elim (some none) (readList read) = some (nonempty? xs) := by
  cases xs with
  | nil => rfl
  | cons x xs => exact readList_array h

theorem encode_listField {α : Type} {write : α → Item} {settle : α → α}
    (h : ∀ x, (write (settle x)).encode = (write x).encode) (xs : List α) :
    (listField ((xs.map settle).map write)).map Item.encode = (listField (xs.map write)).map Item.encode := by
  cases xs with
  | nil => rfl
  | cons x xs => exact congrArg some (encode_array h (x :: xs))

end SeaOfNodes.Listing
