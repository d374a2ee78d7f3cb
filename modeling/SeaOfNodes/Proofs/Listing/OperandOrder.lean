/-
  SeaOfNodes.Proofs.Listing.OperandOrder

  The order of the value operands of an instruction.  They are sorted by number, those
  without a number first, by a relation that takes a difference in 64 bits.  Of all numbers a
  role can be written with only the highest one goes wrong, and only against a role without
  a number: each of the two goes before the other.  What comes of it depends on the order of
  connection, for an element is inserted from the back and stops at the first one it does not
  go before.
-/
import SeaOfNodes.Proofs.Listing.Operands
import SeaOfNodes.Proofs.Role
import Mathlib.Algebra.Group.Int.Defs

namespace SeaOfNodes.Listing

open StableSort

/-- The place of an operand by its number, one without a number in front. -/
abbrev operandKey (e : Edge) : Int := e.role.slot.toInt

/-- The operands are numbered as roles are written: not at all, or from zero up. -/
def WrittenNumbers (edges : List Edge) : Prop := ∀ e ∈ edges, ∀ n, e.role.index = some n → 0 ≤ n

/-- The operand has no number. -/
def IsUnnumbered (e : Edge) : Prop := e.role.index = none

/-- The operand has the highest number there is. -/
def IsHighest (e : Edge) : Prop := e.role.index = some Int64.maxValue

instance (e : Edge) : Decidable (IsUnnumbered e) := inferInstanceAs (Decidable (e.role.index = none))

instance (e : Edge) : Decidable (IsHighest e) := inferInstanceAs (Decidable (e.role.index = some Int64.maxValue))

/-- No text is read as a role with a number below zero. -/
theorem writtenNumbers_of_parse {edges : List Edge} (h : ∀ e ∈ edges, ∃ raw, Role.parse raw = .ok e.role) :
    WrittenNumbers edges := by
  intro e he n hn
  obtain ⟨raw, hraw⟩ := h e he
  exact (Role.parse_eq_ok.1 hraw).index_nonneg hn

/-! ## The relation -/

section Relation

variable {e a b : Edge}

theorem operandKey_of_isUnnumbered (h : IsUnnumbered e) : operandKey e = -1 := by
  rw [operandKey, Role.slot, show e.role.index = none from h]
  rfl

theorem operandKey_of_isHighest (h : IsHighest e) : operandKey e = 2 ^ 63 - 1 := by
  rw [operandKey, Role.slot, show e.role.index = some Int64.maxValue from h]
  decide

theorem operandKey_le (e : Edge) : operandKey e ≤ 2 ^ 63 - 1 := by
  have hlt := e.role.slot.toInt_lt
  show e.role.slot.toInt ≤ 2 ^ 63 - 1
  omega

theorem isHighest_of_operandKey (h : operandKey e = 2 ^ 63 - 1) : IsHighest e := by
  have hnumbered : ¬ IsUnnumbered e := by
    intro hnone
    rw [operandKey_of_isUnnumbered hnone] at h
    omega
  obtain ⟨n, hn⟩ := Option.ne_none_iff_exists'.1 hnumbered
  rw [operandKey, Role.slot, hn] at h
  have hmax : n = Int64.maxValue := Int64.toInt_inj.1 (h.trans (by decide))
  rw [IsHighest, hn, hmax]

variable {edges : List Edge} (hwritten : WrittenNumbers edges)
include hwritten

theorem operandKey_nonneg (he : e ∈ edges) (h : ¬ IsUnnumbered e) : 0 ≤ operandKey e := by
  obtain ⟨n, hn⟩ := Option.ne_none_iff_exists'.1 h
  have hle := Int64.le_iff_toInt_le.1 (hwritten e he n hn)
  rw [operandKey, Role.slot, hn]
  exact hle

theorem neg_one_le_operandKey (he : e ∈ edges) : -1 ≤ operandKey e := by
  by_cases hnone : IsUnnumbered e
  · exact Int.le_of_eq (operandKey_of_isUnnumbered hnone).symm
  · exact Int.le_trans (by decide) (operandKey_nonneg hwritten he hnone)

/-- The difference wraps for the highest number less none, and for nothing else. -/
theorem goesBefore_eq_decide (ha : a ∈ edges) (hb : b ∈ edges) (hfits : ¬ (IsHighest a ∧ IsUnnumbered b)) :
    goesBefore a b = decide (operandKey a < operandKey b) := by
  have hlowa := neg_one_le_operandKey hwritten ha
  have hlowb := neg_one_le_operandKey hwritten hb
  have hhigha := operandKey_le a
  have hhighb := operandKey_le b
  have hroom : operandKey a - operandKey b < 2 ^ 63 := by
    by_contra hwraps
    refine hfits ⟨isHighest_of_operandKey (by omega), ?_⟩
    by_contra hnumbered
    have hnonneg := operandKey_nonneg hwritten hb hnumbered
    omega
  have hdiff : (a.role.slot - b.role.slot).toInt = operandKey a - operandKey b := by
    rw [Int64.toInt_sub]
    show (operandKey a - operandKey b).bmod (2 ^ 64) = operandKey a - operandKey b
    exact Int.bmod_eq_of_le (by omega) (by omega)
  rw [goesBefore, decide_eq_decide, Int64.lt_iff_toInt_lt, hdiff]
  show operandKey a - operandKey b < 0 ↔ operandKey a < operandKey b
  omega

end Relation

/-- The highest number goes before none, which goes before it. -/
theorem goesBefore_of_isHighest {a b : Edge} (ha : IsHighest a) (hb : IsUnnumbered b) : goesBefore a b = true := by
  rw [goesBefore, Role.slot, Role.slot, show a.role.index = _ from ha, show b.role.index = _ from hb]
  decide

/-! ## Where the order goes wrong -/

/-- One or more operands without a number come first, and after them one with the highest number. -/
def OpensReversed (edges : List Edge) : Prop :=
  ∃ front last back, edges = front ++ last :: back ∧ front ≠ [] ∧ (∀ e ∈ front, IsUnnumbered e) ∧ IsHighest last

/-- Cut into runs of twenty, one run of the operands begins so. -/
def HasReversedRun (edges : List Edge) : Prop :=
  ∃ k, OpensReversed ((edges.drop (k * runLength)).take runLength)

/-- An operand with the highest number passes all that have none. -/
theorem insertBack_of_isHighest {last : Edge} (hlast : IsHighest last) {zs : List Edge}
    (hzs : ∀ z ∈ zs, IsUnnumbered z) : insertBack goesBefore last zs = zs ++ [last] := by
  induction zs with
  | nil => rfl
  | cons z rest ih =>
      obtain ⟨hz, hrest⟩ := List.forall_mem_cons.1 hzs
      rw [insertBack, if_pos (goesBefore_of_isHighest hlast hz), ih hrest]
      rfl

/-- It stays in front of them whatever else is inserted. -/
theorem OpensReversed.sublist_insertion {edges : List Edge} (h : OpensReversed edges) :
    ∃ last first, IsHighest last ∧ IsUnnumbered first ∧ [last, first].Sublist (insertion goesBefore edges) := by
  obtain ⟨front, last, back, rfl, hfront, hunnumbered, hlast⟩ := h
  obtain ⟨first, hfirst⟩ := List.exists_mem_of_ne_nil front hfront
  refine ⟨last, first, hlast, hunnumbered first hfirst, ?_⟩
  -- Inserting the front gives the front again, in some order and last one first.
  have hperm : (front.foldl (fun sorted x => insertBack goesBefore x sorted) []).Perm front :=
    (List.reverse_perm _).symm.trans (perm_insertion goesBefore front)
  have hall : ∀ z ∈ front.foldl (fun sorted x => insertBack goesBefore x sorted) [], IsUnnumbered z :=
    fun z hz => hunnumbered z (hperm.mem_iff.1 hz)
  have hpassed : [first, last].Sublist
      (insertBack goesBefore last (front.foldl (fun sorted x => insertBack goesBefore x sorted) [])) := by
    rw [insertBack_of_isHighest hlast hall]
    exact (List.singleton_sublist.2 (hperm.mem_iff.2 hfirst)).append_right [last]
  have hkept := hpassed.trans (sublist_foldl_insertBack goesBefore back _)
  show [last, first].Sublist ((front ++ last :: back).foldl _ []).reverse
  rw [List.foldl_append, List.foldl_cons]
  exact hkept.reverse

theorem not_orders_of_hasReversedRun {edges : List Edge} (h : HasReversedRun edges) :
    ¬ Orders operandKey edges (sortEdges edges) := by
  obtain ⟨k, hrun⟩ := h
  intro horders
  have hsome : (edges.drop (k * runLength)).take runLength ≠ [] := by
    obtain ⟨front, last, back, heq, -⟩ := hrun
    simp [heq]
  obtain ⟨last, first, hlast, hfirst, hsub⟩ := hrun.sublist_insertion
  -- No merge brings the two back into order.
  have hmerged := hsub.trans (sublist_mergeAll goesBefore (insertion_mem_runs goesBefore k hsome))
  have hle := List.rel_of_pairwise_cons (horders.ascends.sublist hmerged) (List.mem_singleton_self first)
  rw [operandKey_of_isHighest hlast, operandKey_of_isUnnumbered hfirst] at hle
  omega

/-! ## Where it is right -/

section Right

variable {edges : List Edge} (hwritten : WrittenNumbers edges)
include hwritten

theorem orders_sortEdges_of_apart (h : ¬ ((∃ e ∈ edges, IsUnnumbered e) ∧ ∃ e ∈ edges, IsHighest e)) :
    Orders operandKey edges (sortEdges edges) :=
  orders_sort fun a ha b hb => goesBefore_eq_decide hwritten ha hb fun hboth => h ⟨⟨b, hb, hboth.2⟩, a, ha, hboth.1⟩

/-- An operand with the highest number that finds a number behind the operands without one stays at the
    back, where it belongs. -/
theorem inserts_of_isHighest {x y : Edge} {sorted : List Edge} (hsorted : Ascends operandKey sorted.reverse)
    (hx : x ∈ edges) (hmem : ∀ z ∈ sorted, z ∈ edges) (hhighest : IsHighest x) (hy : y ∈ sorted)
    (hnumbered : ¬ IsUnnumbered y) : Inserts goesBefore operandKey x sorted := by
  cases sorted with
  | nil => cases hy
  | cons z rest =>
      -- The one at the back is not less than the number, so it has a number too.
      have hlast : ¬ IsUnnumbered z := by
        intro hnone
        have hle := hsorted.le_first hy
        have hnonneg := operandKey_nonneg hwritten (hmem y hy) hnumbered
        rw [operandKey_of_isUnnumbered hnone] at hle
        omega
      have hle : operandKey z ≤ operandKey x := by
        rw [operandKey_of_isHighest hhighest]
        exact operandKey_le z
      refine inserts_of_not_before ?_ hle hsorted
      rw [goesBefore_eq_decide hwritten hx (hmem z List.mem_cons_self) fun hboth => hlast hboth.2]
      exact decide_eq_false (Int.not_lt.2 hle)

theorem orders_insertion_of_not_opensReversed (h : ¬ OpensReversed edges) :
    Orders operandKey edges (insertion goesBefore edges) := by
  refine orders_insertion_of_inserts fun done x todo sorted hsplit hsorted => ?_
  have hdone : ∀ z, z ∈ sorted ↔ z ∈ done := fun z => by rw [← hsorted.mem_iff, List.mem_reverse]
  have hmem : ∀ z ∈ sorted, z ∈ edges := fun z hz => by simp [hsplit, (hdone z).1 hz]
  have hx : x ∈ edges := by simp [hsplit]
  by_cases hwraps : IsHighest x ∧ ∃ z ∈ sorted, IsUnnumbered z
  case neg =>
    -- The relation is right about all that has been inserted.
    refine inserts_of_compares (fun z hz => ?_) hsorted.ascends
    exact goesBefore_eq_decide hwritten hx (hmem z hz) fun hboth => hwraps ⟨hboth.1, z, hz, hboth.2⟩
  case pos =>
    obtain ⟨hhighest, first, hfirst, -⟩ := hwraps
    -- Not all that has been inserted is without a number, or this one would follow them at once.
    have hnumbered : ∃ y ∈ done, ¬ IsUnnumbered y := by
      by_contra hnone
      refine h ⟨done, x, todo, hsplit, List.ne_nil_of_mem ((hdone first).1 hfirst), fun e he => ?_, hhighest⟩
      by_contra hnumbered
      exact hnone ⟨e, he, hnumbered⟩
    obtain ⟨y, hy, hynumbered⟩ := hnumbered
    exact inserts_of_isHighest hwritten hsorted.ascends hx hmem hhighest ((hdone y).2 hy) hynumbered

theorem orders_sortEdges_iff (hshort : edges.length ≤ runLength) :
    Orders operandKey edges (sortEdges edges) ↔ ¬ OpensReversed edges := by
  have hruns : sortEdges edges = insertion goesBefore edges := by
    rw [sortEdges, sort, runs, if_pos hshort, mergeAll]
  constructor
  · intro horders hopens
    refine not_orders_of_hasReversedRun ⟨0, ?_⟩ horders
    rwa [Nat.zero_mul, List.drop_zero, List.take_of_length_le hshort]
  · rw [hruns]
    exact orders_insertion_of_not_opensReversed hwritten

end Right

/-! ## Emission -/

/-- The arguments of an instruction are the registers of the value inputs of its node as they are
    sorted.  The sorted inputs ascend, equal numbers in the order of connection, unless inputs without a number
    and inputs with the highest one come together; they do not if in a run of twenty the inputs without a
    number come first and one with the highest number follows, and up to twenty inputs only then. -/
theorem emitNode_args_ordered {g : Graph} {id : NodeId} {d : Draft} (hphi : g.op id ≠ .phi)
    (hwritten : WrittenNumbers (g.inputsNamed id .value)) (h : emitNode g id = .ok d) :
    Loads g (operandEdges g id) d.args ∧
      (¬ ((∃ e ∈ g.inputsNamed id .value, IsUnnumbered e) ∧ ∃ e ∈ g.inputsNamed id .value, IsHighest e) →
        Orders operandKey (g.inputsNamed id .value) (operandEdges g id)) ∧
      (HasReversedRun (g.inputsNamed id .value) →
        ¬ Orders operandKey (g.inputsNamed id .value) (operandEdges g id)) ∧
      ((g.inputsNamed id .value).length ≤ runLength →
        (Orders operandKey (g.inputsNamed id .value) (operandEdges g id) ↔
          ¬ OpensReversed (g.inputsNamed id .value))) := by
  exact ⟨(emitNode_eq_ok h).args hphi, orders_sortEdges_of_apart hwritten, not_orders_of_hasReversedRun,
    orders_sortEdges_iff hwritten⟩

/-- An addition that reads arguments under some roles, in registers. -/
def addGraph (roles : List Role) : Graph :=
  numberNodes (Graph.assemble (.add :: roles.map fun _ => .arg)
    (roles.mapIdx fun i role => ⟨i + 1, 0, role⟩)) 0 (List.range (roles.length + 1))

/-- The value with the lowest number is connected first, the one with the highest last, and the one
    without a number in between; it comes first. -/
theorem emitNode_add_ordered :
    emitNode (addGraph [.valueN 1, .value, .valueN Int64.maxValue]) 0 = .ok ⟨"add", 0, [], [2, 1, 3], []⟩ ∧
      Orders operandKey ((addGraph [.valueN 1, .value, .valueN Int64.maxValue]).inputsNamed 0 .value)
        (operandEdges (addGraph [.valueN 1, .value, .valueN Int64.maxValue]) 0) := by
  have hemit : emitNode (addGraph [.valueN 1, .value, .valueN Int64.maxValue]) 0
      = .ok ⟨"add", 0, [], [2, 1, 3], []⟩ := by decide +kernel
  have hinputs : (addGraph [.valueN 1, .value, .valueN Int64.maxValue]).inputsNamed 0 .value
      = [⟨1, 0, .valueN 1⟩, ⟨2, 0, .value⟩, ⟨3, 0, .valueN Int64.maxValue⟩] := by decide +kernel
  have hwritten : WrittenNumbers ((addGraph [.valueN 1, .value, .valueN Int64.maxValue]).inputsNamed 0 .value) := by
    refine writtenNumbers_of_parse fun e he => ?_
    rw [hinputs] at he
    simp only [List.mem_cons, List.not_mem_nil, or_false] at he
    obtain rfl | rfl | rfl := he
    · exact ⟨"value(1)", by decide +kernel⟩
    · exact ⟨"value", by decide +kernel⟩
    · exact ⟨"value(9223372036854775807)", by decide +kernel⟩
  obtain ⟨-, -, -, hshort⟩ := emitNode_args_ordered (by decide +kernel) hwritten hemit
  refine ⟨hemit, (hshort (by decide +kernel)).2 ?_⟩
  rintro ⟨front, last, back, heq, hfront, hunnumbered, -⟩
  obtain ⟨e, rest, rfl⟩ := List.exists_cons_of_ne_nil hfront
  rw [hinputs, List.cons_append, List.cons.injEq] at heq
  have hnone := hunnumbered e List.mem_cons_self
  rw [← heq.1] at hnone
  exact absurd hnone (by decide)

/-- A value without a number is connected before the one with the highest number, and comes after it. -/
theorem emitNode_add_reversed :
    emitNode (addGraph [.value, .valueN Int64.maxValue]) 0 = .ok ⟨"add", 0, [], [2, 1], []⟩ ∧
      registerOf (addGraph [.value, .valueN Int64.maxValue]) 1 = .ok 1 ∧
      registerOf (addGraph [.value, .valueN Int64.maxValue]) 2 = .ok 2 ∧
      ¬ Orders operandKey ((addGraph [.value, .valueN Int64.maxValue]).inputsNamed 0 .value)
        (operandEdges (addGraph [.value, .valueN Int64.maxValue]) 0) := by
  have hinputs : (addGraph [.value, .valueN Int64.maxValue]).inputsNamed 0 .value
      = [⟨1, 0, .value⟩, ⟨2, 0, .valueN Int64.maxValue⟩] := by decide +kernel
  have hsorted : operandEdges (addGraph [.value, .valueN Int64.maxValue]) 0
      = [⟨2, 0, .valueN Int64.maxValue⟩, ⟨1, 0, .value⟩] := by decide +kernel
  refine ⟨by decide +kernel, by decide +kernel, by decide +kernel, fun horders => ?_⟩
  have hle := horders.ascends
  rw [hsorted] at hle
  exact absurd (List.rel_of_pairwise_cons hle (List.mem_singleton_self _)) (by decide)

end SeaOfNodes.Listing
