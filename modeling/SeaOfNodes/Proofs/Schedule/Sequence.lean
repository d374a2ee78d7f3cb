/-
  SeaOfNodes.Proofs.Schedule.Sequence

  The numbers of the fixed nodes.  A node is numbered when all its predecessors are,
  one above the highest of them, so numbers grow along control.  Each numbering raises
  the highest number by at most one, so no number gets too large for its 64 bits.
-/
import SeaOfNodes.Proofs.Graph.Consistent
import SeaOfNodes.Proofs.Lists
import SeaOfNodes.Proofs.Outcome
import SeaOfNodes.Proofs.Schedule.ControlWalk
import SeaOfNodes.Schedule.Sequence
import Mathlib.Algebra.Group.Int.Defs
import Mathlib.Algebra.Group.Nat.Defs

namespace SeaOfNodes.Schedule

open Relation

/-! ## What every numbering keeps -/

section Keeps

variable {P : Graph → List NodeId → Prop}
  (hstep : ∀ {s : Graph} {front back : List NodeId} {id : NodeId} {n : Int64}, P s (front ++ id :: back) →
    nextSequence s id = .ok (some n) → P (s.setProp id Props.sequence (.int n)) (front ++ back))
include hstep

/-- What the numbering of one node keeps, a sweep keeps, up to a node that is refused.  Nodes
    that have to wait move from those to do to those kept. -/
theorem orderSweep_ends {g : Graph} {todo : List NodeId} (kept : List NodeId) (h : P g (kept ++ todo)) :
    (orderSweep g todo).Ends (fun s left => P s (kept ++ left) ∧ left.length ≤ todo.length)
      fun s cause => ∃ waiting, P s waiting ∧ ∃ id ∈ waiting, nextSequence s id = .error cause := by
  induction todo generalizing g kept with
  | nil => exact ⟨h, Nat.le_refl _⟩
  | cons id rest ih =>
      rw [orderSweep]
      cases hnext : nextSequence g id with
      | error cause => exact ⟨kept ++ id :: rest, h, id, by simp, hnext⟩
      | ok next? =>
          cases next? with
          | none =>
              -- A node that has to wait joins those kept.
              refine Outcome.Ends.map ((ih (kept ++ [id]) (by simpa using h)).imp_done ?_)
              rintro s left ⟨hkept, hlen⟩
              exact ⟨by simpa using hkept, by simpa using hlen⟩
          | some n =>
              refine (ih kept (hstep h hnext)).imp_done ?_
              rintro s left ⟨hkept, hlen⟩
              exact ⟨hkept, by simp only [List.length_cons]; omega⟩

/-- What the numbering of one node keeps, holds when all are numbered, and also where a node
    is refused or a sweep numbers nothing.  A sweep that does not shorten the list fails, so
    there are sweeps enough. -/
theorem orderFixed_ends {g : Graph} (h : P g (g.ids.filter g.isFixed)) :
    (orderFixed g).Ends (fun s _ => P s []) fun s cause => ∃ waiting, P s waiting ∧
      ((∃ id ∈ waiting, nextSequence s id = .error cause) ∨ ∃ n label, cause = .cyclicControl n label) := by
  have hloop : ∀ (sweeps : Nat) (g : Graph) (waiting : List NodeId), P g waiting → waiting.length ≤ sweeps →
      (orderLoop sweeps g waiting).Ends (fun s _ => P s []) fun s cause => ∃ waiting, P s waiting ∧
        ((∃ id ∈ waiting, nextSequence s id = .error cause) ∨ ∃ n label, cause = .cyclicControl n label) := by
    intro sweeps
    induction sweeps with
    | zero =>
        intro g waiting h hsweeps
        obtain rfl := List.length_eq_zero_iff.1 (Nat.le_zero.1 hsweeps)
        exact h
    | succ sweeps ih =>
        rintro g (_ | ⟨first, rest⟩) h hsweeps
        · exact h
        · rw [orderLoop]
          · refine ((orderSweep_ends hstep [] h).imp_failed ?_).andThen ?_
            · rintro s cause ⟨waiting, hwaiting, hrefused⟩
              exact ⟨waiting, hwaiting, .inl hrefused⟩
            · rintro s (_ | ⟨other, more⟩) ⟨hkept, hlen⟩
              · exact hkept
              · dsimp only
                split
                · exact ⟨_, hkept, .inr ⟨_, _, rfl⟩⟩
                · rename_i hshort
                  exact ih s _ hkept (by simp only [List.length_cons] at *; omega)
          · simp
  exact hloop _ g _ h (Nat.le_refl _)

theorem orderFixed_keeps {g ordered : Graph} (h : P g (g.ids.filter g.isFixed))
    (horder : orderFixed g = .done ordered ()) : P ordered [] :=
  (orderFixed_ends hstep h).of_eq_ok horder

end Keeps

/-- Numbering changes properties only. -/
theorem agree_orderFixed (keep : Role → Bool) {g ordered : Graph} (h : orderFixed g = .done ordered ()) :
    Graph.Agree keep g ordered :=
  orderFixed_keeps (P := fun s _ => Graph.Agree keep g s)
    (fun hs _ => hs.trans (Graph.agree_setProp keep _ _ Props.sequence _)) (.refl keep g) h

/-- Numbering gives a property only to the sequence. -/
theorem get?_props_orderFixed {key : String} (hkey : key ≠ Props.sequence) {g ordered : Graph}
    (h : orderFixed g = .done ordered ()) (id : NodeId) :
    (ordered.props id).get? key = (g.props id).get? key := by
  refine orderFixed_keeps (P := fun s _ => (s.props id).get? key = (g.props id).get? key)
    (fun {s front back x n} hs _ => ?_) rfl h
  rw [Graph.props_setProp]
  split
  · rw [Props.get?_set_ne hkey, hs]
  · exact hs

/-! ## The next number -/

/-- Below the highest number of 64 bits one more is one more. -/
theorem toInt_add_one {m : Int64} (h : m.toInt < 2 ^ 63 - 1) : (m + 1).toInt = m.toInt + 1 := by
  have hone : (1 : Int64).toInt = 1 := by decide
  have hlow := m.le_toInt
  rw [Int64.toInt_add, hone]
  exact Int.bmod_eq_of_le (by omega) (by omega)

theorem sequence_eq_ok {g : Graph} {id : NodeId} {n : Int64} :
    sequence g id = .ok n ↔ (g.props id).int? Props.sequence = some n := by
  unfold sequence
  split <;> simp [*]

theorem sequence_setProp {g : Graph} {id : NodeId} (hid : g.has id = true) (x : NodeId) (n m : Int64) :
    sequence (g.setProp id Props.sequence (.int n)) x = .ok m
      ↔ if x = id then n = m else sequence g x = .ok m := by
  rw [sequence_eq_ok, sequence_eq_ok, Graph.props_setProp, Props.int?]
  by_cases hx : x = id
  · simp [hx, hid, Literal.int?]
  · simp [hx, Props.int?]

/-- Without the property there is no number. -/
theorem sequence_ne_ok_of_unset {g : Graph} {id : NodeId} (h : (g.props id).has Props.sequence = false) (n : Int64) :
    sequence g id ≠ .ok n := by
  intro hn
  rw [sequence_eq_ok, Props.int?_eq_none h] at hn
  cases hn

/-- The highest number is that of a node, and no node has a higher one. -/
theorem highestSequence?_eq_some {g : Graph} {ids : List NodeId} {m : Int64}
    (h : highestSequence? g ids = some m) :
    (∀ a ∈ ids, ∃ k, sequence g a = .ok k ∧ k.toInt ≤ m.toInt) ∧
      (m = -1 ∨ ∃ a ∈ ids, sequence g a = .ok m) := by
  induction ids generalizing m with
  | nil =>
      cases h
      exact ⟨by simp, .inl rfl⟩
  | cons a rest ih =>
      rw [highestSequence?] at h
      obtain ⟨n, hn, h⟩ := Option.bind_eq_some_iff.1 h
      obtain ⟨k, hk, h⟩ := Option.bind_eq_some_iff.1 h
      obtain rfl : (if k ≤ n then n else k) = m := Option.some.inj h
      obtain ⟨hall, hattained⟩ := ih hk
      rw [← sequence_eq_ok] at hn
      by_cases hle : k ≤ n
      · rw [if_pos hle]
        rw [Int64.le_iff_toInt_le] at hle
        refine ⟨fun x hx => ?_, .inr ⟨a, List.mem_cons_self, hn⟩⟩
        rcases List.mem_cons.1 hx with rfl | hx
        · exact ⟨n, hn, Int.le_refl _⟩
        · obtain ⟨j, hj, hjk⟩ := hall x hx
          exact ⟨j, hj, by omega⟩
      · rw [if_neg hle]
        rw [Int64.le_iff_toInt_le] at hle
        refine ⟨fun x hx => ?_, hattained.imp_right fun ⟨x, hx, hxk⟩ => ⟨x, List.mem_cons_of_mem a hx, hxk⟩⟩
        rcases List.mem_cons.1 hx with rfl | hx
        · exact ⟨n, hn, by omega⟩
        · exact hall x hx

/-- A node gets number 0, or has predecessors and gets one more than their highest. -/
theorem nextSequence_eq_some {g : Graph} {id : NodeId} {n : Int64} (h : nextSequence g id = .ok (some n)) :
    (g.op id = .start ∧ n = 0) ∨ (g.op id ≠ .start ∧ g.controlPredecessors id ≠ [] ∧
      ∃ m, highestSequence? g (g.controlPredecessors id) = some m ∧ n = m + 1) := by
  unfold nextSequence at h
  split at h
  · rename_i hop
    cases h
    exact .inl ⟨hop, rfl⟩
  · rename_i hop
    split at h
    · cases h
    · rename_i hpreds
      obtain ⟨m, hm, rfl⟩ := Option.map_eq_some_iff.1 (Except.ok.inj h)
      exact .inr ⟨hop, hpreds, m, hm, rfl⟩

/-! ## The invariant -/

/-- What holds while the fixed nodes of `g` are being numbered. -/
structure Ordered (g s : Graph) (waiting : List NodeId) : Prop where
  agree : Graph.Agree (fun _ => true) g s
  nodup : waiting.Nodup
  live : ∀ id ∈ waiting, g.has id = true
  few : waiting.length ≤ (g.ids.filter g.isFixed).length
  waits : ∀ id ∈ waiting, ∀ n, sequence s id ≠ .ok n
  numbered : ∀ id, g.has id = true → g.isFixed id = true → id ∉ waiting → ∃ n, sequence s id = .ok n
  bound : ∀ id n, sequence s id = .ok n →
    0 ≤ n.toInt ∧ n.toInt + waiting.length < (g.ids.filter g.isFixed).length
  above : ∀ id n, sequence s id = .ok n → g.op id ≠ .start → ∀ a ∈ g.controlPredecessors id,
    ∃ m, sequence s a = .ok m ∧ m.toInt < n.toInt
  walk : ∀ id n, sequence s id = .ok n → ∃ earlier, g.ControlWalk (id :: earlier)

namespace Ordered

variable {g s : Graph}

/-- The next number is above those of the predecessors, and not by more than needed. -/
theorem next {waiting : List NodeId} (h : Ordered g s waiting) (hg : g.Consistent)
    (hsize : (g.ids.filter g.isFixed).length < 2 ^ 63) {id : NodeId} {n : Int64}
    (hnext : nextSequence s id = .ok (some n)) :
    (0 ≤ n.toInt ∧ n.toInt + waiting.length ≤ (g.ids.filter g.isFixed).length) ∧
      (g.op id ≠ .start → ∀ a ∈ g.controlPredecessors id, ∃ m, sequence s a = .ok m ∧ m.toInt < n.toInt) ∧
      ∃ earlier, g.ControlWalk (id :: earlier) := by
  have hfew := h.few
  have hsame : Graph.SameProgram g s := h.agree.sameProgram
  rcases nextSequence_eq_some hnext with ⟨hop, rfl⟩ | ⟨hop, hpreds, m, hm, rfl⟩
  · rw [h.agree.op] at hop
    exact ⟨⟨by simp, by simp; omega⟩, fun hnot => absurd hop hnot, [], .start hop⟩
  · rw [hsame.controlPredecessors] at hm hpreds
    obtain ⟨hall, hattained⟩ := highestSequence?_eq_some hm
    have hrange : -1 ≤ m.toInt ∧ m.toInt + waiting.length < (g.ids.filter g.isFixed).length := by
      rcases hattained with rfl | ⟨a, -, ha⟩
      · have hlit : (-1 : Int64).toInt = -1 := by decide
        rw [hlit]
        omega
      · have hbound := h.bound a m ha
        omega
    rw [toInt_add_one (by omega)]
    refine ⟨by omega, fun _ a ha => ?_, ?_⟩
    · obtain ⟨k, hk, hle⟩ := hall a ha
      exact ⟨k, hk, by omega⟩
    · obtain ⟨a, ha⟩ := List.exists_mem_of_ne_nil _ hpreds
      obtain ⟨k, hk, -⟩ := hall a ha
      obtain ⟨earlier, hwalk⟩ := h.walk a k hk
      exact ⟨a :: earlier, hwalk.step (hg.mem_controlPredecessors.1 ha)⟩

/-- Numbering a node keeps the invariant: its successors have no number yet. -/
theorem number {front back : List NodeId} {id : NodeId} {n : Int64} (h : Ordered g s (front ++ id :: back))
    (hg : g.Consistent) (hsize : (g.ids.filter g.isFixed).length < 2 ^ 63)
    (hnext : nextSequence s id = .ok (some n)) :
    Ordered g (s.setProp id Props.sequence (.int n)) (front ++ back) := by
  have hwait : id ∈ front ++ id :: back := by simp
  have hperm : (front ++ id :: back).Perm (id :: (front ++ back)) := List.perm_middle
  have hnodup := List.nodup_cons.1 (hperm.nodup_iff.1 h.nodup)
  have hlen : (front ++ id :: back).length = (front ++ back).length + 1 := hperm.length_eq
  have hrest : ∀ x ∈ front ++ back, x ∈ front ++ id :: back := fun _ => mem_of_mem_without
  have hset : ∀ x m, sequence (s.setProp id Props.sequence (.int n)) x = .ok m
      ↔ if x = id then n = m else sequence s x = .ok m := fun x =>
    sequence_setProp (by rw [h.agree.has]; exact h.live id hwait) x n
  obtain ⟨hrange, habove, hwalk⟩ := h.next hg hsize hnext
  have hfew := h.few
  -- Predecessors were numbered before, so none of them is the node itself.
  have hpred : ∀ {x : NodeId} {m : Int64}, (∃ k, sequence s x = .ok k ∧ k.toInt < m.toInt) →
      ∃ k, sequence (s.setProp id Props.sequence (.int n)) x = .ok k ∧ k.toInt < m.toInt := by
    rintro x m ⟨k, hk, hlt⟩
    refine ⟨k, (hset x k).2 ?_, hlt⟩
    rw [if_neg]
    · exact hk
    · rintro rfl
      exact h.waits x hwait k hk
  refine ⟨h.agree.trans (Graph.agree_setProp _ _ _ _ _), hnodup.2, fun x hx => h.live x (hrest x hx), by omega,
    fun x hx m hm => ?_, fun x hhas hfixed hx => ?_, fun x m hm => ?_, fun x m hm hop a ha => ?_,
    fun x m hm => ?_⟩
  -- The list does not repeat itself, so who still waits is another node.
  · rw [hset, if_neg] at hm
    · exact h.waits x (hrest x hx) m hm
    · rintro rfl
      exact hnodup.1 hx
  · by_cases hxid : x = id
    · exact ⟨n, (hset x n).2 (by rw [if_pos hxid])⟩
    · have hnot : x ∉ front ++ id :: back := fun hmem =>
        (List.mem_cons.1 (hperm.mem_iff.1 hmem)).elim hxid hx
      obtain ⟨m, hm⟩ := h.numbered x hhas hfixed hnot
      exact ⟨m, (hset x m).2 (by rw [if_neg hxid]; exact hm)⟩
  · rw [hset] at hm
    split at hm
    · subst hm
      omega
    -- One node fewer waits, which leaves room for a number one higher.
    · have hbound := h.bound x m hm
      omega
  · rw [hset] at hm
    split at hm
    · rename_i hxid
      subst hm hxid
      exact hpred (habove hop a ha)
    · exact hpred (h.above x m hm hop a ha)
  · rw [hset] at hm
    split at hm
    · rename_i hxid
      exact hxid ▸ hwalk
    · exact h.walk x m hm

end Ordered

theorem length_fixed_lt {g : Graph} (hsize : g.arena.size < 2 ^ 63) : (g.ids.filter g.isFixed).length < 2 ^ 63 := by
  have hfilter : (g.ids.filter g.isFixed).length ≤ g.ids.length := List.length_filter_le ..
  have hids := g.length_ids_le
  omega

/-- Before anything is numbered every fixed node waits. -/
theorem ordered_initial {g : Graph} (hnone : ∀ id, (g.props id).has Props.sequence = false) :
    Ordered g g (g.ids.filter g.isFixed) := by
  have hno : ∀ id n, sequence g id ≠ .ok n := fun id => sequence_ne_ok_of_unset (hnone id)
  exact {
    agree := .refl _ g
    nodup := g.nodup_ids.filter _
    live := fun id hid => Graph.mem_ids.1 (List.mem_of_mem_filter hid)
    few := Nat.le_refl _
    waits := fun id _ => hno id
    numbered := fun id hhas hfixed hid => absurd (List.mem_filter.2 ⟨Graph.mem_ids.2 hhas, hfixed⟩) hid
    bound := fun id n hn => absurd hn (hno id n)
    above := fun id n hn => absurd hn (hno id n)
    walk := fun id n hn => absurd hn (hno id n)
  }

theorem ordered_of_orderFixed {g ordered : Graph} (hg : g.Consistent) (hsize : g.arena.size < 2 ^ 63)
    (hnone : ∀ id, (g.props id).has Props.sequence = false) (h : orderFixed g = .done ordered ()) :
    Ordered g ordered [] :=
  orderFixed_keeps (fun hs hnext => hs.number hg (length_fixed_lt hsize) hnext) (ordered_initial hnone) h

/-- Where control never returns to a start, numbers grow along control. -/
theorem Ordered.sequence_lt {g s : Graph} (h : Ordered g s []) (hg : g.Consistent)
    (hstart : ∀ id, g.op id = .start → g.controlPredecessors id = []) {a b : NodeId}
    (hpath : TransGen (fun x y => y ∈ g.controlSuccessors x) a b) {m n : Int64}
    (hm : sequence s a = .ok m) (hn : sequence s b = .ok n) : m.toInt < n.toInt := by
  -- By induction on the path: a start has no predecessors, so each edge raises the number.
  have hedge : ∀ {x y : NodeId} {k : Int64}, y ∈ g.controlSuccessors x → sequence s y = .ok k →
      ∃ j, sequence s x = .ok j ∧ j.toInt < k.toInt := by
    intro x y k hy hk
    rw [← hg.mem_controlPredecessors] at hy
    refine h.above y k hk (fun hop => ?_) x hy
    rw [hstart y hop] at hy
    cases hy
  induction hpath generalizing n with
  | single hb =>
      obtain ⟨j, hj, hlt⟩ := hedge hb hn
      rw [hm, Except.ok.injEq] at hj
      rwa [hj]
  | tail _ hb ih =>
      obtain ⟨j, hj, hlt⟩ := hedge hb hn
      have hless := ih hj
      omega

end SeaOfNodes.Schedule
