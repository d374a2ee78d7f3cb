/-
  SeaOfNodes.Proofs.Role

  The spellings of roles.  A role that a graph may use is spelled as its name, or as its
  name and an index in parentheses; leading zeros do not change an index.  Reading accepts
  exactly these spellings, and of the spellings of a role writing picks the one without
  leading zeros.
-/
import Mathlib.Algebra.Group.Nat.Defs
import Mathlib.Data.List.Basic
import Mathlib.Data.List.Induction
import Mathlib.Data.List.TakeDrop
import Mathlib.Data.List.TakeWhile
import SeaOfNodes.Role

namespace SeaOfNodes.Role

/-! ## Names -/

namespace Name

/-- The names of control and value roles. -/
def usable : List Name := [control, ifTrue, ifFalse, value, receiver, arg, condition]

example : usable.map text = ["control", "true", "false", "value", "receiver", "arg", "condition"] := rfl

/-- A graph may use the names of control and of value roles. -/
theorem mem_usable {name : Name} : name ∈ usable ↔ name.isControl = true ∨ name.isValue = true := by
  cases name <;> simp [usable, isControl, isValue]

theorem mem_usable_iff_not {name : Name} : name ∈ usable ↔ ¬ (!name.isControl && !name.isValue) = true := by
  rw [mem_usable]
  simp [or_iff_not_imp_left]

theorem ofText_text {name : Name} (h : name ∈ known) : ofText name.text = name := by
  simp only [known, List.mem_cons, List.not_mem_nil, or_false] at h
  rcases h with rfl | rfl | rfl | rfl | rfl | rfl | rfl | rfl | rfl <;> rfl

theorem text_ofText (text : String) : (ofText text).text = text := by
  unfold ofText
  cases hfind : known.find? fun name => name.text == text with
  | none => rfl
  | some name => simpa using List.find?_some hfind

theorem usable_subset_known : usable ⊆ known := by
  intro name h
  simp only [usable, List.mem_cons, List.not_mem_nil, or_false] at h
  rcases h with rfl | rfl | rfl | rfl | rfl | rfl | rfl <;> decide

/-- The letters of a name that a graph may use are those of role names, and there are some. -/
theorem isNameChar_of_mem_usable {name : Name} (h : name ∈ usable) :
    name.text.toList ≠ [] ∧ ∀ c ∈ name.text.toList, isNameChar c = true := by
  rw [← List.all_eq_true]
  simp only [usable, List.mem_cons, List.not_mem_nil, or_false] at h
  rcases h with rfl | rfl | rfl | rfl | rfl | rfl | rfl <;> decide

end Name

/-! ## Digits -/

theorem readDigits_eq (digits : List Char) : readDigits digits = Nat.ofDigitChars 10 digits 0 := by
  unfold readDigits Nat.ofDigitChars
  congr 1
  funext n c
  rw [Nat.mul_comm]

/-- Digits without the zeros in front; of nothing but zeros one is left. -/
def trimZeros (digits : List Char) : List Char :=
  match digits.dropWhile (· == '0') with
  | [] => ['0']
  | rest => rest

theorem digitChar_of_isDigit {c : Char} (h : c.isDigit = true) : (c.toNat - '0'.toNat).digitChar = c := by
  obtain ⟨hlow, hhigh⟩ := Char.isDigit_iff_toNat.1 h
  have hzero : '0'.toNat = 48 := rfl
  have hnine : '9'.toNat = 57 := rfl
  apply Char.toNat_inj.1
  rw [Nat.toNat_digitChar_of_lt_ten (by omega)]
  omega

theorem ofDigitChars_dropWhile_zero (digits : List Char) :
    Nat.ofDigitChars 10 (digits.dropWhile (· == '0')) 0 = Nat.ofDigitChars 10 digits 0 := by
  induction digits with
  | nil => rfl
  | cons c rest ih =>
      by_cases hc : c = '0'
      · subst hc
        rw [List.dropWhile_cons_of_pos rfl, ih]
        rfl
      · rw [List.dropWhile_cons_of_neg (by simpa using hc)]

/-- Digits that begin with no zero are what their number is written as. -/
theorem toDigits_ofDigitChars_cons {c : Char} {rest : List Char} (hdigits : ∀ d ∈ c :: rest, d.isDigit = true)
    (hc : c ≠ '0') :
    0 < Nat.ofDigitChars 10 (c :: rest) 0 ∧ Nat.toDigits 10 (Nat.ofDigitChars 10 (c :: rest) 0) = c :: rest := by
  have hlt : ∀ d : Char, d.isDigit = true → d.toNat - '0'.toNat < 10 := by
    intro d hd
    obtain ⟨-, hhigh⟩ := Char.isDigit_iff_toNat.1 hd
    have hzero : '0'.toNat = 48 := rfl
    have hnine : '9'.toNat = 57 := rfl
    omega
  -- The induction takes digits off the end, as the last digit is the remainder by ten.
  induction rest using List.reverseRecOn with
  | nil =>
      have hdigit : c.isDigit = true := hdigits c List.mem_cons_self
      have hvalue : Nat.ofDigitChars 10 [c] 0 = c.toNat - '0'.toNat := by
        simp [Nat.ofDigitChars]
      rw [hvalue, Nat.toDigits_of_lt_base (hlt c hdigit), digitChar_of_isDigit hdigit]
      refine ⟨Nat.pos_of_ne_zero fun hnone => hc ?_, rfl⟩
      rw [← digitChar_of_isDigit hdigit, hnone]
      rfl
  | append_singleton front d ih =>
      obtain ⟨hpos, hfront⟩ := ih fun x hx => hdigits x (by
        rw [← List.cons_append]
        exact List.mem_append_left _ hx)
      have hd : d.isDigit = true := hdigits d (by simp)
      have hvalue : Nat.ofDigitChars 10 (c :: (front ++ [d])) 0
          = 10 * Nat.ofDigitChars 10 (c :: front) 0 + (d.toNat - '0'.toNat) := by
        rw [← List.cons_append, Nat.ofDigitChars_append]
        rfl
      rw [hvalue, ← Nat.toDigits_append_toDigits (by decide) hpos (hlt d hd), hfront,
        Nat.toDigits_of_lt_base (hlt d hd), digitChar_of_isDigit hd]
      exact ⟨by omega, by simp⟩

/-- The number that digits stand for is written without the zeros in front of them. -/
theorem toDigits_ofDigitChars {digits : List Char} (hdigits : ∀ d ∈ digits, d.isDigit = true) :
    Nat.toDigits 10 (Nat.ofDigitChars 10 digits 0) = trimZeros digits := by
  rw [← ofDigitChars_dropWhile_zero]
  unfold trimZeros
  cases hdrop : digits.dropWhile (· == '0') with
  | nil => rfl
  | cons c rest =>
      have hc : c ≠ '0' := by
        have := List.head?_dropWhile_not (· == '0') digits
        rw [hdrop] at this
        simpa using this
      refine (toDigits_ofDigitChars_cons (fun d hd => hdigits d ?_) hc).2
      exact (List.dropWhile_sublist _).subset (hdrop ▸ hd)

/-! ## Spellings -/

/-- What stands behind the name of a role: nothing, or digits in parentheses. -/
def indexText : Option (List Char) → List Char
  | none => []
  | some digits => '(' :: digits ++ [')']

/-- A name, and digits in parentheses behind it. -/
def spelling (name : Name) (digits? : Option (List Char)) : String :=
  name.text ++ String.ofList (indexText digits?)

theorem toList_spelling (name : Name) (digits? : Option (List Char)) :
    (spelling name digits?).toList = name.text.toList ++ indexText digits? := by
  simp [spelling]

/-- A text spells a role: the name is one that a graph may use, and the index is as long as one
    likes but fits 63 bits. -/
inductive Spells : String → Role → Prop
  | plain {name : Name} (hname : name ∈ Name.usable) : Spells (spelling name none) ⟨name, none⟩
  | indexed {name : Name} {digits : List Char} {n : Int64} (hname : name ∈ Name.usable) (hsome : digits ≠ [])
      (hdigits : ∀ c ∈ digits, c.isDigit = true) (hfits : Nat.ofDigitChars 10 digits 0 ≤ 2 ^ 63 - 1)
      (hn : n.toInt = Nat.ofDigitChars 10 digits 0) : Spells (spelling name (some digits)) ⟨name, some n⟩

theorem Spells.mem_usable {raw : String} {role : Role} (h : Spells raw role) : role.name ∈ Name.usable := by
  cases h <;> assumption

theorem Spells.index_nonneg {raw : String} {role : Role} (h : Spells raw role) {n : Int64} (hn : role.index = some n) :
    0 ≤ n := by
  cases h with
  | plain => cases hn
  | indexed _ _ _ _ hindex =>
      obtain rfl := Option.some.inj hn
      rw [Int64.le_iff_toInt_le, hindex]
      exact Int.natCast_nonneg _

theorem span_append {p : Char → Bool} {front back : List Char} (hfront : ∀ c ∈ front, p c = true)
    (hback : ∀ c ∈ back.head?, p c = false) : (front ++ back).span p = (front, back) := by
  rw [List.span_eq_takeWhile_dropWhile, List.takeWhile_append_of_pos hfront, List.dropWhile_append_of_pos hfront]
  cases back with
  | nil => simp
  | cons c rest =>
      have hc : p c = false := hback c rfl
      simp [hc]

theorem span_eq {p : Char → Bool} {cs front back : List Char} (h : cs.span p = (front, back)) :
    (∀ c ∈ front, p c = true) ∧ cs = front ++ back := by
  rw [List.span_eq_takeWhile_dropWhile, Prod.mk.injEq] at h
  obtain ⟨rfl, rfl⟩ := h
  exact ⟨fun c hc => List.mem_takeWhile_imp hc, List.takeWhile_append_dropWhile.symm⟩

/-- What a text is split into: letters of a name and, possibly, digits in parentheses. -/
theorem eq_append_of_split? {raw name : List Char} {digits? : Option (List Char)}
    (h : split? raw = some (name, digits?)) :
    (name ≠ [] ∧ ∀ c ∈ name, isNameChar c = true) ∧
      (∀ digits ∈ digits?, digits ≠ [] ∧ ∀ c ∈ digits, c.isDigit = true) ∧
      raw = name ++ indexText digits? := by
  unfold split? at h
  split at h
  · cases h
  · rename_i front hne hspan
    obtain ⟨rfl, rfl⟩ : front = name ∧ none = digits? := by simpa using h
    obtain ⟨hfront, hraw⟩ := span_eq hspan
    exact ⟨⟨hne, hfront⟩, by simp, hraw⟩
  · rename_i front rest hne hspan
    obtain ⟨hfront, hraw⟩ := span_eq hspan
    split at h
    · cases h
    · rename_i digits hsome hdigits
      obtain ⟨rfl, rfl⟩ : front = name ∧ some digits = digits? := by simpa using h
      obtain ⟨hall, hrest⟩ := span_eq hdigits
      refine ⟨⟨hne, hfront⟩, fun other hother => ?_, by rw [hraw, hrest]; rfl⟩
      obtain rfl := Option.mem_some_iff.1 hother
      exact ⟨hsome, hall⟩
    · cases h
  · cases h

/-- Such a text is split there: a parenthesis is no letter of a name, and no digit. -/
theorem split?_append_indexText {name : List Char} {digits? : Option (List Char)}
    (hsome : name ≠ []) (hname : ∀ c ∈ name, isNameChar c = true)
    (hdigits : ∀ digits ∈ digits?, digits ≠ [] ∧ ∀ c ∈ digits, c.isDigit = true) :
    split? (name ++ indexText digits?) = some (name, digits?) := by
  obtain ⟨first, letters, rfl⟩ := List.exists_cons_of_ne_nil hsome
  cases digits? with
  | none =>
      unfold split?
      rw [span_append hname (by simp [indexText])]
      rfl
  | some digits =>
      obtain ⟨hne, hall⟩ := hdigits digits rfl
      obtain ⟨d, more, rfl⟩ := List.exists_cons_of_ne_nil hne
      have hspan : (d :: more ++ [')']).span isDigit = (d :: more, [')']) := span_append hall (by simp [isDigit])
      unfold split?
      rw [span_append hname (by simp [indexText, isNameChar])]
      simp only [indexText, List.cons_append]
      rw [← List.cons_append, hspan]
      rfl

/-- What is read was spelled. -/
theorem spells_of_parse {raw : String} {role : Role} (h : parse raw = .ok role) : Spells raw role := by
  unfold parse at h
  split at h
  · cases h
  · rename_i letters digits? hsplit
    obtain ⟨-, hdigits, hraw⟩ := eq_append_of_split? hsplit
    have htext : raw = spelling (Name.ofText (String.ofList letters)) digits? := by
      rw [← String.toList_inj, toList_spelling, Name.text_ofText, String.toList_ofList, hraw]
    rw [htext]
    by_cases hname : Name.ofText (String.ofList letters) ∈ Name.usable
    · rw [if_neg (Name.mem_usable_iff_not.1 hname)] at h
      cases digits? with
      | none =>
          cases h
          exact .plain hname
      | some digits =>
          obtain ⟨hne, hall⟩ := hdigits digits rfl
          simp only [readDigits_eq] at h
          -- An index that does not fit 63 bits is refused; in one that does, nothing wraps.
          split at h
          · rename_i hfits
            cases h
            exact .indexed hname hne hall (by omega) (Int64.toInt_ofNat_of_lt hfits)
          · cases h
    · rw [if_pos (not_not.1 (mt Name.mem_usable_iff_not.2 hname))] at h
      cases h

theorem split?_spelling {name : Name} (hname : name ∈ Name.usable) {digits? : Option (List Char)}
    (hdigits : ∀ digits ∈ digits?, digits ≠ [] ∧ ∀ c ∈ digits, c.isDigit = true) :
    split? (spelling name digits?).toList = some (name.text.toList, digits?) := by
  obtain ⟨hsome, hletters⟩ := Name.isNameChar_of_mem_usable hname
  rw [toList_spelling]
  exact split?_append_indexText hsome hletters hdigits

theorem ofText_toList_text {name : Name} (hname : name ∈ Name.usable) :
    Name.ofText (String.ofList name.text.toList) = name := by
  rw [String.ofList_toList, Name.ofText_text (Name.usable_subset_known hname)]

/-- What is spelled is read. -/
theorem parse_of_spells {raw : String} {role : Role} (h : Spells raw role) : parse raw = .ok role := by
  unfold parse
  cases h with
  | @plain name hname =>
      rw [split?_spelling hname (by simp)]
      simp only [ofText_toList_text hname]
      rw [if_neg (Name.mem_usable_iff_not.1 hname)]
      rfl
  | @indexed name digits n hname hsome hdigits hfits hn =>
      have hindex : Int64.ofNat (Nat.ofDigitChars 10 digits 0) = n := by
        rw [← Int64.toInt_inj, hn]
        exact Int64.toInt_ofNat_of_lt (by omega)
      rw [split?_spelling hname fun _ hmem => Option.mem_some_iff.1 hmem ▸ ⟨hsome, hdigits⟩]
      simp only [ofText_toList_text hname, readDigits_eq]
      rw [if_neg (Name.mem_usable_iff_not.1 hname), if_pos (by omega), hindex]

/-- Reading accepts the spellings of a role and nothing else. -/
theorem parse_eq_ok {raw : String} {role : Role} : parse raw = .ok role ↔ Spells raw role :=
  ⟨spells_of_parse, parse_of_spells⟩

/-! ## Writing -/

/-- A role with an index is written with the digits of the index. -/
theorem text_indexed {name : Name} {n : Int64} {value : Nat} (hn : n.toInt = value) :
    text ⟨name, some n⟩ = spelling name (some (Nat.toDigits 10 value)) := by
  have hdigits : toString (value : Int) = String.ofList (Nat.toDigits 10 value) := rfl
  rw [← String.toList_inj, toList_spelling]
  simp [text, hn, hdigits, indexText]

theorem text_plain (name : Name) : text ⟨name, none⟩ = spelling name none := by
  rw [← String.toList_inj, toList_spelling]
  simp [text, indexText]

/-- A role is written as one of its spellings. -/
theorem spells_text {role : Role} (hname : role.name ∈ Name.usable) (hindex : ∀ n ∈ role.index, 0 ≤ n) :
    Spells role.text role := by
  obtain ⟨name, index⟩ := role
  cases index with
  | none =>
      rw [text_plain]
      exact .plain hname
  | some n =>
      have hpos : 0 ≤ n.toInt := by simpa using Int64.le_iff_toInt_le.1 (hindex n rfl)
      obtain ⟨value, hvalue⟩ := Int.eq_ofNat_of_zero_le hpos
      have hread : Nat.ofDigitChars 10 (Nat.toDigits 10 value) 0 = value :=
        Nat.ofDigitChars_toDigits (by decide) (by decide)
      rw [text_indexed hvalue]
      refine .indexed hname Nat.toDigits_ne_nil
        (fun c hc => Nat.isDigit_of_mem_toDigits (by decide) (by decide) hc) ?_ (by rw [hread, hvalue])
      rw [hread]
      have := n.toInt_lt
      omega

/-- Of the spellings of a role the one without leading zeros is written. -/
theorem text_of_spells {raw : String} {role : Role} (h : Spells raw role) :
    ∃ digits?, raw = spelling role.name digits? ∧ role.text = spelling role.name (digits?.map trimZeros) := by
  cases h with
  | plain hname => exact ⟨none, rfl, text_plain _⟩
  | @indexed name digits n hname hsome hdigits hfits hn =>
      refine ⟨some digits, rfl, ?_⟩
      rw [text_indexed hn, toDigits_ofDigitChars hdigits]
      rfl

/-- Roles are read exactly from their spellings, what is written is read back, and writing what was
    read takes away the zeros in front of its index and nothing else. -/
theorem parse_spelling_round_trip :
    (∀ raw role, parse raw = .ok role ↔ Spells raw role) ∧
      (∀ role : Role, role.name ∈ Name.usable → (∀ n ∈ role.index, 0 ≤ n) → parse role.text = .ok role) ∧
      ∀ raw role, parse raw = .ok role →
        ∃ digits?, raw = spelling role.name digits? ∧ role.text = spelling role.name (digits?.map trimZeros) :=
  ⟨fun _ _ => parse_eq_ok, fun _ hname hindex => parse_eq_ok.2 (spells_text hname hindex),
    fun _ _ h => text_of_spells (parse_eq_ok.1 h)⟩

/-- The index 2^63-1 may have zeros in front, and is written without them; the next is refused. -/
theorem parse_largest_index :
    Spells "arg(009223372036854775807)" ⟨.arg, some Int64.maxValue⟩ ∧ Name.arg ∈ Name.usable ∧ 0 ≤ Int64.maxValue ∧
      parse "arg(009223372036854775807)" = .ok ⟨.arg, some Int64.maxValue⟩ ∧
      parse "arg(9223372036854775807)" = .ok ⟨.arg, some Int64.maxValue⟩ ∧
      parse "arg(9223372036854775808)" = .error (.number "arg(9223372036854775808)" "9223372036854775808") ∧
      ∀ role, ¬ Spells "arg(9223372036854775808)" role := by
  obtain ⟨hread, hback, -⟩ := parse_spelling_round_trip
  have hspelling : "arg(009223372036854775807)" = spelling .arg (some "009223372036854775807".toList) := by decide
  have hspells : Spells "arg(009223372036854775807)" ⟨.arg, some Int64.maxValue⟩ := by
    rw [hspelling]
    exact .indexed (by decide) (by decide) (List.all_eq_true.1 (by decide)) (by decide) (by decide)
  have hwritten : text ⟨.arg, some Int64.maxValue⟩ = "arg(9223372036854775807)" := by decide
  have hrefused : parse "arg(9223372036854775808)"
      = .error (.number "arg(9223372036854775808)" "9223372036854775808") := by decide
  refine ⟨hspells, by decide, by decide, (hread _ _).2 hspells, ?_, hrefused, fun role hrole => ?_⟩
  · rw [← hwritten]
    exact hback _ (by decide) (by simp)
  · have haccepted := (hread _ _).2 hrole
    rw [hrefused] at haccepted
    cases haccepted

end SeaOfNodes.Role
