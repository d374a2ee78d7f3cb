/-
  SeaOfNodes.Proofs.Listing.PresetRegisters

  Numbering a graph in which nodes come with registers.  New values are numbered in
  order from a start on, and the start is one past the highest register present as long as
  that is a 64-bit integer.  A node with the highest 64-bit integer of all sends the start
  back to the lowest one, and only the registers of the nodes behind it raise it again: the
  numbers given out then may be taken.
-/
import SeaOfNodes.Proofs.Listing.Numbering
import Mathlib.Algebra.Group.Int.Defs
import Mathlib.Data.List.DropRight

namespace SeaOfNodes.Listing

/-! ## 64-bit integers -/

/-- Integers are the same in 64 bits if they differ by a multiple of `2 ^ 64`. -/
theorem ofInt_eq_ofInt_iff {a b : Int} : Int64.ofInt a = Int64.ofInt b ↔ (2 ^ 64 : Int) ∣ a - b := by
  rw [← Int64.toInt_inj, Int64.toInt_ofInt, Int64.toInt_ofInt, Int.bmod_eq_bmod_iff_bmod_sub_eq_zero,
    ← Int.dvd_iff_bmod_eq_zero]
  rfl

/-- The number `i` places behind `a`, counted in 64 bits. -/
theorem add_ofNat_eq (a : Int64) (i : Nat) : a + Int64.ofNat i = Int64.ofInt (a.toInt + i) := by
  rw [Int64.ofInt_add, Int64.ofInt_toInt, Int64.ofInt_eq_ofNat]

theorem add_ofNat_eq_iff {a r : Int64} {i : Nat} :
    a + Int64.ofNat i = r ↔ (2 ^ 64 : Int) ∣ a.toInt + i - r.toInt := by
  rw [add_ofNat_eq, ← ofInt_eq_ofInt_iff, Int64.ofInt_toInt]

/-- Fewer than `2 ^ 64` places on the number is another one. -/
theorem add_ofNat_inj {a : Int64} {i j : Nat} (hi : i < 2 ^ 64) (hj : j < 2 ^ 64)
    (h : a + Int64.ofNat i = a + Int64.ofNat j) : i = j := by
  rw [add_ofNat_eq, add_ofNat_eq, ofInt_eq_ofInt_iff] at h
  omega

theorem toInt_add_one_of_ne {r : Int64} (h : r ≠ Int64.maxValue) : (r + 1).toInt = r.toInt + 1 := by
  have hne : r.toInt ≠ Int64.maxValue.toInt := fun heq => h (Int64.toInt_inj.1 heq)
  have hmax : Int64.maxValue.toInt = 2 ^ 63 - 1 := by decide
  have hlt := r.toInt_lt
  exact Schedule.toInt_add_one (by omega)

/-! ## Where numbering starts -/

/-- The registers that nodes of a graph have, in ascending order of the nodes. -/
def presets (g : Graph) : List Int64 := g.ids.filterMap fun id => (g.props id).int? Props.register

theorem mem_presets {g : Graph} {r : Int64} : r ∈ presets g ↔ ∃ id, (g.props id).int? Props.register = some r := by
  rw [presets, List.mem_filterMap]
  refine ⟨fun ⟨id, _, hr⟩ => ⟨id, hr⟩, fun ⟨id, hr⟩ => ⟨id, ?_, hr⟩⟩
  obtain ⟨value, hvalue, -⟩ := Option.bind_eq_some_iff.1 hr
  exact Graph.mem_ids.2 (Graph.has_of_get?_props hvalue)

/-- One past the highest of some registers, but at least `low`. -/
def pastHighest (low : Int) (rs : List Int64) : Int := rs.foldr (fun r past => max (r.toInt + 1) past) low

/-- Where the numbers of new values start.  A node whose register is the highest 64-bit integer
    sends them back to the lowest, and then the registers behind the last such node count. -/
def numberingStart (rs : List Int64) : Int :=
  pastHighest (if Int64.maxValue ∈ rs then -2 ^ 63 else 0) (rs.rtakeWhile (· ≠ Int64.maxValue))

theorem le_pastHighest (low : Int) (rs : List Int64) : low ≤ pastHighest low rs := by
  induction rs with
  | nil => exact Int.le_refl low
  | cons r rest ih => exact Int.le_trans ih (Int.le_max_right _ _)

theorem lt_pastHighest (low : Int) {rs : List Int64} {r : Int64} (hr : r ∈ rs) :
    r.toInt < pastHighest low rs := by
  induction rs with
  | nil => cases hr
  | cons x rest ih =>
      show r.toInt < max (x.toInt + 1) (pastHighest low rest)
      rcases List.mem_cons.1 hr with rfl | hr
      · omega
      · have hrest := ih hr
        omega

theorem pastHighest_concat (low : Int) (rs : List Int64) (r : Int64) :
    pastHighest low (rs ++ [r]) = max (r.toInt + 1) (pastHighest low rs) := by
  induction rs with
  | nil => rfl
  | cons x rest ih =>
      show max (x.toInt + 1) (pastHighest low (rest ++ [r])) =
        max (r.toInt + 1) (max (x.toInt + 1) (pastHighest low rest))
      omega

/-- As long as no register is the highest 64-bit integer, numbers start one past the highest
    register. -/
theorem numberingStart_of_not_mem {rs : List Int64} (h : Int64.maxValue ∉ rs) :
    numberingStart rs = pastHighest 0 rs := by
  have hall : rs.rtakeWhile (· ≠ Int64.maxValue) = rs := by
    apply List.rtakeWhile_eq_self_iff.2
    intro r hr
    have hne : r ≠ Int64.maxValue := fun heq => h (heq ▸ hr)
    exact decide_eq_true hne
  rw [numberingStart, if_neg h, hall]

theorem numberingStart_concat (rs : List Int64) (r : Int64) :
    numberingStart (rs ++ [r]) = if r = Int64.maxValue then -2 ^ 63 else max (r.toInt + 1) (numberingStart rs) := by
  by_cases hr : r = Int64.maxValue
  · rw [if_pos hr, numberingStart, List.rtakeWhile_concat_neg _ _ _ (by simp [hr]), if_pos (by simp [hr])]
    rfl
  · have hmem : Int64.maxValue ∈ rs ++ [r] ↔ Int64.maxValue ∈ rs := by
      simp [Ne.symm hr]
    rw [if_neg hr, numberingStart, List.rtakeWhile_concat_pos _ _ _ (by simp [hr]), pastHighest_concat]
    simp only [hmem]
    rfl

/-- The scan over nodes as a scan over their registers. -/
theorem firstFree_eq_foldl (g : Graph) (next : Int64) (ids : List NodeId) :
    firstFree g next ids = (ids.filterMap fun id => (g.props id).int? Props.register).foldl
      (fun next r => if next ≤ r then r + 1 else next) next := by
  induction ids generalizing next with
  | nil => rfl
  | cons id rest ih =>
      rw [firstFree]
      cases hr : (g.props id).int? Props.register with
      | none =>
          rw [List.filterMap_cons, hr]
          exact ih next
      | some r =>
          rw [List.filterMap_cons, hr]
          exact ih _

/-- Numbers start where the scan over all nodes ends. -/
theorem toInt_firstFree (g : Graph) : (firstFree g 0 g.ids).toInt = numberingStart (presets g) := by
  rw [firstFree_eq_foldl, ← presets]
  -- The scan meets the registers in order, so the induction takes off the last one.
  induction presets g using List.reverseRecOn with
  | nil => rfl
  | append_singleton rs r ih =>
      rw [List.foldl_concat, numberingStart_concat, ← ih]
      generalize rs.foldl _ (0 : Int64) = next
      by_cases hr : r = Int64.maxValue
      · have hle : next ≤ r := by
          rw [hr, Int64.le_iff_toInt_le]
          exact next.toInt_le
        rw [if_pos hle, if_pos hr, hr]
        decide
      · rw [if_neg hr]
        split
        case isTrue hle =>
          rw [Int64.le_iff_toInt_le] at hle
          rw [toInt_add_one_of_ne hr]
          omega
        case isFalse hlt =>
          rw [Int64.le_iff_toInt_le] at hlt
          omega

/-! ## Registers that are given out -/

/-- A register that a node is given is the register of no other node. -/
def AssignedApart (g out : Graph) : Prop :=
  ∀ id r, (g.props id).has Props.register = false → registerOf out id = .ok r →
    ∀ other, registerOf out other = .ok r → other = id

/-- `count` numbers in a row, the first one `start`, are different in 64 bits, and no register
    is among them. -/
def FreeFrom (start : Int) (count : Nat) (rs : List Int64) : Prop :=
  count ≤ 2 ^ 64 ∧ ∀ r ∈ rs, ∀ i : Nat, i < count → ¬ (2 ^ 64 : Int) ∣ start + i - r.toInt

/-- Numbers that start past the highest register are free as far as 64-bit integers go. -/
theorem freeFrom_of_pastHighest_le {rs : List Int64} {count : Nat} (h : pastHighest 0 rs + count ≤ 2 ^ 63) :
    FreeFrom (numberingStart rs) count rs := by
  have hzero := le_pastHighest 0 rs
  refine ⟨by omega, fun r hr i hi => ?_⟩
  have hmax : Int64.maxValue ∉ rs := by
    intro hmem
    have hpast := lt_pastHighest 0 hmem
    have hvalue : Int64.maxValue.toInt = 2 ^ 63 - 1 := by decide
    omega
  have hpast := lt_pastHighest 0 hr
  have hlow := r.le_toInt
  rw [numberingStart_of_not_mem hmax]
  -- The number is greater than the register, by less than `2 ^ 64`.
  omega

theorem int?_eq_none_of_needsRegister {g : Graph} {id : NodeId} (h : needsRegister g id = true) :
    (g.props id).int? Props.register = none :=
  Props.int?_eq_none (needsRegister_iff.1 h).2

section Numbered

variable (g : Graph) (chains : List Chain)

/-- The nodes that are given registers, in the order in which they get them. -/
abbrev newValues : List NodeId := awaiting g (chains.flatMap Chain.nodes)

theorem props_assignRegisters_of_not_mem {id : NodeId} (h : id ∉ newValues g chains) :
    (assignRegisters g chains).props id = g.props id := by
  rw [assignRegisters, props_numberNodes, if_neg h]

theorem registerOf_newValue {id : NodeId} (h : id ∈ newValues g chains) :
    registerOf (assignRegisters g chains) id
      = .ok (firstFree g 0 g.ids + Int64.ofNat ((newValues g chains).idxOf id)) := by
  rw [registerOf_eq_ok_iff, assignRegisters, props_numberNodes, if_pos h, Props.int?, Props.get?_set_self]
  rfl

/-- A register is either a new number or one the graph came with. -/
theorem registerOf_assignRegisters_cases {id : NodeId} {r : Register}
    (h : registerOf (assignRegisters g chains) id = .ok r) :
    (id ∈ newValues g chains ∧ r = firstFree g 0 g.ids + Int64.ofNat ((newValues g chains).idxOf id)) ∨
      (id ∉ newValues g chains ∧ (g.props id).int? Props.register = some r) := by
  by_cases hid : id ∈ newValues g chains
  · rw [registerOf_newValue g chains hid] at h
    exact .inl ⟨hid, (Except.ok.inj h).symm⟩
  · rw [registerOf_eq_ok_iff, props_assignRegisters_of_not_mem g chains hid] at h
    exact .inr ⟨hid, h⟩

theorem assignedApart_of_freeFrom
    (h : FreeFrom (numberingStart (presets g)) (newValues g chains).length (presets g)) :
    AssignedApart g (assignRegisters g chains) := by
  obtain ⟨hcount, hfree⟩ := h
  intro id r hnone hid other hother
  rcases registerOf_assignRegisters_cases g chains hid with ⟨hmem, hr⟩ | ⟨-, hr⟩
  case inr =>
    -- Without a property there is no register.
    rw [Props.int?_eq_none hnone] at hr
    cases hr
  case inl =>
    have hplace := List.idxOf_lt_length_iff.2 hmem
    rcases registerOf_assignRegisters_cases g chains hother with ⟨hmem', hr'⟩ | ⟨-, hr'⟩
    · have hplace' := List.idxOf_lt_length_iff.2 hmem'
      have hsame : (newValues g chains).idxOf other = (newValues g chains).idxOf id :=
        add_ofNat_inj (by omega) (by omega) (hr'.symm.trans hr)
      exact (List.idxOf_inj hmem').1 hsame
    · have hdvd := add_ofNat_eq_iff.1 hr.symm
      rw [toInt_firstFree] at hdvd
      exact absurd hdvd (hfree r (mem_presets.2 ⟨other, hr'⟩) _ hplace)

theorem freeFrom_of_assignedApart (h : AssignedApart g (assignRegisters g chains)) :
    FreeFrom (numberingStart (presets g)) (newValues g chains).length (presets g) := by
  have hnodup := nodup_awaiting g (chains.flatMap Chain.nodes)
  -- The value at each place has its number, and had no register.
  have hnumber : ∀ (i : Nat) (hi : i < (newValues g chains).length),
      registerOf (assignRegisters g chains) (newValues g chains)[i] = .ok (firstFree g 0 g.ids + Int64.ofNat i) := by
    intro i hi
    rw [registerOf_newValue g chains (List.getElem_mem hi), hnodup.idxOf_getElem i hi]
  have hneeds : ∀ (i : Nat) (hi : i < (newValues g chains).length),
      needsRegister g (newValues g chains)[i] = true := fun i hi => (mem_awaiting.1 (List.getElem_mem hi)).2
  have hfresh : ∀ (i : Nat) (hi : i < (newValues g chains).length),
      (g.props (newValues g chains)[i]).has Props.register = false :=
    fun i hi => (needsRegister_iff.1 (hneeds i hi)).2
  constructor
  · -- The value `2 ^ 64` places behind the first would have the number of the first.
    by_contra hmany
    have hlast : 2 ^ 64 < (newValues g chains).length := by omega
    have hfirst : 0 < (newValues g chains).length := by omega
    have hsame : firstFree g 0 g.ids + Int64.ofNat (2 ^ 64) = firstFree g 0 g.ids + Int64.ofNat 0 := by
      rw [add_ofNat_eq, add_ofNat_eq, ofInt_eq_ofInt_iff]
      exact ⟨1, by omega⟩
    have heq := h _ _ (hfresh 0 hfirst) (hnumber 0 hfirst) _ ((hnumber _ hlast).trans (by rw [hsame]))
    have hplaces := (hnodup.getElem_inj_iff).1 heq
    omega
  · intro r hr i hi hdvd
    obtain ⟨other, hother⟩ := mem_presets.1 hr
    have hsame : firstFree g 0 g.ids + Int64.ofNat i = r := by
      rw [add_ofNat_eq_iff, toInt_firstFree]
      exact hdvd
    have hout : registerOf (assignRegisters g chains) other = .ok r := by
      have hnot : other ∉ newValues g chains := by
        intro hmem
        rw [int?_eq_none_of_needsRegister (mem_awaiting.1 hmem).2] at hother
        cases hother
      rw [registerOf_eq_ok_iff, props_assignRegisters_of_not_mem g chains hnot]
      exact hother
    -- So the node that came with it is the value, which came with none.
    have heq := h _ _ (hfresh i hi) (hsame ▸ hnumber i hi) other hout
    rw [heq, int?_eq_none_of_needsRegister (hneeds i hi)] at hother
    cases hother

/-- Nodes that came with a register property keep it and every other value on a chain is given a
    register.  The registers given out are apart from all others exactly if the numbers from the
    start on are free, as they are if those past the highest register present are 64-bit integers. -/
theorem assignRegisters_apart_iff :
    (∀ id, (g.props id).has Props.register = true → (assignRegisters g chains).props id = g.props id) ∧
      (∀ id ∈ chains.flatMap Chain.nodes, g.producesValue id = true → (g.props id).has Props.register = false →
        ∃ r, registerOf (assignRegisters g chains) id = .ok r) ∧
      (AssignedApart g (assignRegisters g chains) ↔
        FreeFrom (numberingStart (presets g)) (newValues g chains).length (presets g)) ∧
      (pastHighest 0 (presets g) + (newValues g chains).length ≤ 2 ^ 63 →
        AssignedApart g (assignRegisters g chains)) := by
  refine ⟨fun id hhas => ?_, fun id hid hvalue hnone => ?_, ?_, fun hroom => ?_⟩
  · apply props_assignRegisters_of_not_mem
    intro hmem
    rw [(needsRegister_iff.1 (mem_awaiting.1 hmem).2).2] at hhas
    cases hhas
  · have hneeds : needsRegister g id = true := needsRegister_iff.2 ⟨hvalue, hnone⟩
    exact ⟨_, registerOf_newValue g chains (mem_awaiting.2 ⟨hid, hneeds⟩)⟩
  · exact ⟨freeFrom_of_assignedApart g chains, assignedApart_of_freeFrom g chains⟩
  · exact assignedApart_of_freeFrom g chains (freeFrom_of_pastHighest_le hroom)

end Numbered

/-- Three arguments in one block, the second of which comes with a register. -/
def presetGraph : Graph :=
  (Graph.assemble [.start, .arg, .arg, .arg] []).setProp 2 Props.register (.int 9)

/-- Its block. -/
def presetChains : List Chain := [⟨0, [0, 1, 2, 3], none, false⟩]

/-- The register 9 stays, and the others are 10 and 11. -/
theorem assignRegisters_preset_apart :
    AssignedApart presetGraph (assignRegisters presetGraph presetChains) ∧
      [1, 2, 3].map (registerOf (assignRegisters presetGraph presetChains)) = [.ok 10, .ok 9, .ok 11] := by
  obtain ⟨-, -, -, hroom⟩ := assignRegisters_apart_iff presetGraph presetChains
  have hsmall : pastHighest 0 (presets presetGraph) + (newValues presetGraph presetChains).length ≤ 2 ^ 63 := by
    decide +kernel
  exact ⟨hroom hsmall, by decide +kernel⟩

/-- Four arguments in one block, of which three come with registers, one of them the highest
    64-bit integer. -/
def extremeGraph : Graph :=
  (((Graph.assemble [.start, .arg, .arg, .arg, .arg] []).setProp 1 Props.register (.int 1)).setProp 2 Props.register
    (.int Int64.maxValue)).setProp 3 Props.register (.int 0)

/-- Its block. -/
def extremeChains : List Chain := [⟨0, [0, 1, 2, 3, 4], none, false⟩]

/-- Behind the highest integer only the register 0 counts, so the last argument is given the register
    of the first. -/
theorem not_assignedApart_extreme :
    numberingStart (presets extremeGraph) = 1 ∧
      [1, 2, 3, 4].map (registerOf (assignRegisters extremeGraph extremeChains))
        = [.ok 1, .ok Int64.maxValue, .ok 0, .ok 1] ∧
      ¬ AssignedApart extremeGraph (assignRegisters extremeGraph extremeChains) := by
  have hfirst : registerOf (assignRegisters extremeGraph extremeChains) 1 = .ok 1 := by decide +kernel
  have hlast : registerOf (assignRegisters extremeGraph extremeChains) 4 = .ok 1 := by decide +kernel
  refine ⟨by decide +kernel, by decide +kernel, fun hapart => ?_⟩
  have hsame := hapart 4 1 (by decide +kernel) hlast 1 hfirst
  exact absurd hsame (by decide)

end SeaOfNodes.Listing
