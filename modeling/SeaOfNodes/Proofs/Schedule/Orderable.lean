/-
  SeaOfNodes.Proofs.Schedule.Orderable

  When the fixed nodes can be numbered: exactly if control reaches every one of them
  but a start, and never leads back except to a start.  Numbers are no part of the
  condition, so it is easy to carry from one graph to another.
-/
import SeaOfNodes.Proofs.Graph.Readers
import SeaOfNodes.Proofs.Schedule.Sequence
import Mathlib.Order.WellFounded

namespace SeaOfNodes.Schedule

/-- Control reaches every fixed node that is no start, and does not return to one. -/
structure Orderable (g : Graph) : Prop where
  reached : ∀ id, g.isFixed id = true → g.op id ≠ .start → g.Entered id
  ranked : ∃ rank : NodeId → Nat, ∀ e, e.role.isControl = true → 0 < g.multiplicity e →
    g.op e.target ≠ .start → rank e.source < rank e.target

/-- A node has its number. -/
def Numbered (g : Graph) (id : NodeId) : Prop := ∃ n, sequence g id = .ok n

theorem mem_controlPredecessors_iff {g : Graph} (hg : g.Consistent) {a id : NodeId} :
    a ∈ g.controlPredecessors id ↔ ∃ role : Role, role.isControl = true ∧ 0 < g.multiplicity ⟨a, id, role⟩ := by
  rw [hg.mem_controlPredecessors, Graph.controlSuccessors, List.mem_map]
  constructor
  · rintro ⟨e, he, rfl⟩
    obtain ⟨he, hrole⟩ := List.mem_filter.1 he
    have hsource := hg.source_eq a e he
    subst hsource
    exact ⟨e.role, hrole, Graph.multiplicity_pos.2 he⟩
  · rintro ⟨role, hrole, hpos⟩
    exact ⟨⟨a, id, role⟩, List.mem_filter.2 ⟨Graph.multiplicity_pos.1 hpos, hrole⟩, rfl⟩

theorem numbered_setProp {g : Graph} {id : NodeId} (hid : g.has id = true) (n : Int64) {x : NodeId} :
    Numbered (g.setProp id Props.sequence (.int n)) x ↔ x = id ∨ Numbered g x := by
  unfold Numbered
  simp only [sequence_setProp hid]
  by_cases hx : x = id
  · simp [hx]
  · simp [hx]

/-! ## Graphs that are numbered -/

/-- What holds while nodes are numbered one by one: the predecessors of a node with a
    number were numbered before it. -/
structure Ranked (g s : Graph) (waiting : List NodeId) : Prop where
  agree : Graph.Agree (fun _ => true) g s
  waits : ∀ id ∈ waiting, g.has id = true ∧ ¬ Numbered s id
  nodup : waiting.Nodup
  covered : ∀ id, g.isFixed id = true → id ∈ waiting ∨ Numbered s id
  earlier : ∃ (rank : NodeId → Nat) (bound : Nat), (∀ id, Numbered s id → rank id < bound) ∧
    ∀ id, Numbered s id → g.op id ≠ .start → g.controlPredecessors id ≠ [] ∧
      ∀ a ∈ g.controlPredecessors id, Numbered s a ∧ rank a < rank id

/-- A node that is numbered next has predecessors, all of them numbered, unless it is a
    start. -/
theorem predecessors_numbered {g s : Graph} (hagree : Graph.Agree (fun _ => true) g s) {id : NodeId} {n : Int64}
    (hnext : nextSequence s id = .ok (some n)) (hop : g.op id ≠ .start) :
    g.controlPredecessors id ≠ [] ∧ ∀ a ∈ g.controlPredecessors id, Numbered s a := by
  have hsame : Graph.SameProgram g s := hagree.sameProgram
  rcases nextSequence_eq_some hnext with ⟨hstart, -⟩ | ⟨-, hpreds, m, hm, -⟩
  · rw [hagree.op] at hstart
    exact absurd hstart hop
  · rw [hsame.controlPredecessors] at hpreds hm
    refine ⟨hpreds, fun a ha => ?_⟩
    obtain ⟨k, hk, -⟩ := (highestSequence?_eq_some hm).1 a ha
    exact ⟨k, hk⟩

/-- A rank at the bound for the next node keeps ranks growing along control. -/
theorem exists_rank_of_next {g s : Graph} {id : NodeId} {numbered : NodeId → Prop} (hnew : ¬ Numbered s id)
    (hset : ∀ {x : NodeId}, numbered x ↔ x = id ∨ Numbered s x)
    (hpreds : g.op id ≠ .start → g.controlPredecessors id ≠ [] ∧ ∀ a ∈ g.controlPredecessors id, Numbered s a)
    {rank : NodeId → Nat} {bound : Nat} (hbound : ∀ x, Numbered s x → rank x < bound)
    (hearlier : ∀ x, Numbered s x → g.op x ≠ .start → g.controlPredecessors x ≠ [] ∧
      ∀ a ∈ g.controlPredecessors x, Numbered s a ∧ rank a < rank x) :
    ∃ (rank' : NodeId → Nat) (bound' : Nat), (∀ x, numbered x → rank' x < bound') ∧
      ∀ x, numbered x → g.op x ≠ .start → g.controlPredecessors x ≠ [] ∧
        ∀ a ∈ g.controlPredecessors x, numbered a ∧ rank' a < rank' x := by
  have hkeep : ∀ {a : NodeId}, Numbered s a → (if a = id then bound else rank a) = rank a := by
    intro a ha
    rw [if_neg]
    rintro rfl
    exact hnew ha
  refine ⟨fun x => if x = id then bound else rank x, bound + 1, fun x hx => ?_, fun x hx hop => ?_⟩
  · dsimp only
    rcases hset.1 hx with rfl | hx
    · rw [if_pos rfl]
      omega
    · have hlt := hbound x hx
      rw [hkeep hx]
      omega
  · dsimp only
    rcases hset.1 hx with rfl | hx
    · obtain ⟨hne, hall⟩ := hpreds hop
      refine ⟨hne, fun a ha => ⟨hset.2 (.inr (hall a ha)), ?_⟩⟩
      rw [if_pos rfl, hkeep (hall a ha)]
      exact hbound a (hall a ha)
    · obtain ⟨hne, hless⟩ := hearlier x hx hop
      refine ⟨hne, fun a ha => ?_⟩
      obtain ⟨hnumbered, hlt⟩ := hless a ha
      refine ⟨hset.2 (.inr hnumbered), ?_⟩
      rw [hkeep hnumbered, hkeep hx]
      exact hlt

/-- The next node to be numbered is ranked above all before it. -/
theorem Ranked.number {g s : Graph} {front back : List NodeId} {id : NodeId} {n : Int64}
    (h : Ranked g s (front ++ id :: back)) (hnext : nextSequence s id = .ok (some n)) :
    Ranked g (s.setProp id Props.sequence (.int n)) (front ++ back) := by
  have hperm : (front ++ id :: back).Perm (id :: (front ++ back)) := List.perm_middle
  have hwait : id ∈ front ++ id :: back := hperm.mem_iff.2 List.mem_cons_self
  obtain ⟨hnotRest, hnodup⟩ := List.nodup_cons.1 (hperm.nodup_iff.1 h.nodup)
  obtain ⟨hlive, hnew⟩ := h.waits id hwait
  have hset : ∀ {x : NodeId}, Numbered (s.setProp id Props.sequence (.int n)) x ↔ x = id ∨ Numbered s x :=
    numbered_setProp (by rw [h.agree.has]; exact hlive) n
  refine ⟨h.agree.trans (Graph.agree_setProp _ _ _ _ _), fun x hx => ?_, hnodup, fun x hfixed => ?_, ?_⟩
  · obtain ⟨hxlive, hxnew⟩ := h.waits x (mem_of_mem_without hx)
    refine ⟨hxlive, fun hnumbered => ?_⟩
    rcases hset.1 hnumbered with rfl | hnumbered
    · exact hnotRest hx
    · exact hxnew hnumbered
  · rcases h.covered x hfixed with hx | hx
    · rcases List.mem_cons.1 (hperm.mem_iff.1 hx) with rfl | hx
      · exact .inr (hset.2 (.inl rfl))
      · exact .inl hx
    · exact .inr (hset.2 (.inr hx))
  · obtain ⟨rank, bound, hbound, hearlier⟩ := h.earlier
    exact exists_rank_of_next hnew hset (predecessors_numbered h.agree hnext) hbound hearlier

/-- A graph that was numbered from nothing is orderable. -/
theorem orderable_of_orderFixed {g ordered : Graph} (hg : g.Consistent)
    (hnone : ∀ id ∈ g.ids, (g.props id).has Props.sequence = false) (h : orderFixed g = .done ordered ()) :
    Orderable g := by
  have hno : ∀ id, ¬ Numbered g id := by
    rintro id ⟨n, hn⟩
    obtain ⟨value, hvalue, -⟩ := Option.bind_eq_some_iff.1 (sequence_eq_ok.1 hn)
    exact sequence_ne_ok_of_unset (hnone id (Graph.mem_ids.2 (Graph.has_of_get?_props hvalue))) n hn
  -- Before the first step nothing has a number, so the ranks do not matter yet.
  have hranked : Ranked g ordered [] := by
    refine orderFixed_keeps (fun hs hnext => hs.number hnext) ?_ h
    refine ⟨.refl _ g, fun id hid => ?_, g.nodup_ids.filter _, fun id hfixed => ?_, fun _ => 0, 0,
      fun id hid => absurd hid (hno id), fun id hid => absurd hid (hno id)⟩
    · exact ⟨Graph.mem_ids.1 (List.mem_of_mem_filter hid), hno id⟩
    · exact .inl (List.mem_filter.2 ⟨Graph.mem_ids.2 (Graph.has_of_isFixed hfixed), hfixed⟩)
  have hall : ∀ id, g.isFixed id = true → Numbered ordered id := fun id hfixed =>
    (hranked.covered id hfixed).resolve_left (List.not_mem_nil)
  obtain ⟨rank, -, -, hearlier⟩ := hranked.earlier
  refine ⟨fun id hfixed hop => ?_, rank, fun e hrole hpos hop => ?_⟩
  · obtain ⟨hpreds, -⟩ := hearlier id (hall id hfixed) hop
    obtain ⟨a, ha⟩ := List.exists_mem_of_ne_nil _ hpreds
    exact ⟨a, (mem_controlPredecessors_iff hg).1 ha⟩
  · have hfixed : g.isFixed e.target = true := hg.isFixed_iff.2 (.inr (.inl ⟨e.source, e.role, hrole, hpos⟩))
    exact ((hearlier e.target (hall _ hfixed) hop).2 e.source
      ((mem_controlPredecessors_iff hg).2 ⟨e.role, hrole, hpos⟩)).2

/-! ## Graphs that can be numbered -/

theorem highestSequence?_of_numbered {g : Graph} {ids : List NodeId} (h : ∀ id ∈ ids, Numbered g id) :
    ∃ n, highestSequence? g ids = some n := by
  induction ids with
  | nil => exact ⟨-1, rfl⟩
  | cons id rest ih =>
      obtain ⟨n, hn⟩ := h id List.mem_cons_self
      obtain ⟨m, hm⟩ := ih fun x hx => h x (List.mem_cons_of_mem id hx)
      rw [sequence_eq_ok] at hn
      exact ⟨max m n, by simp [highestSequence?, hn, hm]⟩

/-- A node is ready when it is a start or its predecessors are numbered. -/
def Ready (g : Graph) (id : NodeId) : Prop := g.op id = .start ∨ ∀ a ∈ g.controlPredecessors id, Numbered g a

/-- A node with predecessors is not refused, and numbered if it is ready. -/
theorem nextSequence_eq_ok {g : Graph} {id : NodeId} (h : g.op id = .start ∨ g.controlPredecessors id ≠ []) :
    ∃ n?, nextSequence g id = .ok n? ∧ (Ready g id → n?.isSome = true) := by
  unfold nextSequence
  by_cases hop : g.op id = .start
  · exact ⟨some 0, if_pos hop, fun _ => rfl⟩
  · rw [if_neg hop]
    have hpreds := h.resolve_left hop
    split
    · exact absurd (by assumption) hpreds
    · refine ⟨_, rfl, fun hready => ?_⟩
      obtain ⟨n, hn⟩ := highestSequence?_of_numbered (hready.resolve_left hop)
      rw [hn]
      rfl

/-- What a sweep does to the nodes on its list: who is not left to wait is numbered. -/
structure Swept (g s : Graph) (todo left : List NodeId) : Prop where
  agree : Graph.Agree (fun _ => true) g s
  kept : ∀ id, Numbered g id → Numbered s id
  covered : ∀ id ∈ todo, id ∈ left ∨ Numbered s id
  subset : left ⊆ todo
  length_le : left.length ≤ todo.length

theorem Swept.wait {g s : Graph} {rest left : List NodeId} (h : Swept g s rest left) (id : NodeId) :
    Swept g s (id :: rest) (id :: left) where
  agree := h.agree
  kept := h.kept
  covered := by
    intro x hx
    rcases List.mem_cons.1 hx with rfl | hx
    · exact .inl List.mem_cons_self
    · exact (h.covered x hx).imp_left (List.mem_cons_of_mem id)
  subset := List.cons_subset_cons id h.subset
  length_le := Nat.succ_le_succ h.length_le

theorem Swept.number {g s : Graph} {rest left : List NodeId} {id : NodeId} (hid : g.has id = true) {n : Int64}
    (h : Swept (g.setProp id Props.sequence (.int n)) s rest left) : Swept g s (id :: rest) left where
  agree := (Graph.agree_setProp (fun _ => true) g id Props.sequence (.int n)).trans h.agree
  kept := fun x hx => h.kept x ((numbered_setProp hid n).2 (.inr hx))
  covered := by
    intro x hx
    rcases List.mem_cons.1 hx with rfl | hx
    · exact .inr (h.kept x ((numbered_setProp hid n).2 (.inl rfl)))
    · exact h.covered x hx
  subset := fun x hx => List.mem_cons_of_mem id (h.subset hx)
  length_le := Nat.le_succ_of_le h.length_le

/-- A sweep over nodes with predecessors succeeds, and numbers one at least if one is
    ready. -/
theorem orderSweep_progress {todo : List NodeId} {g : Graph} (hlive : ∀ id ∈ todo, g.has id = true)
    (hpreds : ∀ id ∈ todo, g.op id = .start ∨ g.controlPredecessors id ≠ []) :
    ∃ s left, orderSweep g todo = ⟨s, .ok left⟩ ∧ Swept g s todo left ∧
      ((∃ id ∈ todo, Ready g id) → left.length < todo.length) := by
  induction todo generalizing g with
  | nil => exact ⟨g, [], rfl, ⟨.refl _ g, fun _ => id, by simp, by simp, by simp⟩, by simp⟩
  | cons id rest ih =>
      obtain ⟨n?, hnext, hready⟩ := nextSequence_eq_ok (hpreds id List.mem_cons_self)
      have hrestLive : ∀ x ∈ rest, g.has x = true := fun x hx => hlive x (List.mem_cons_of_mem id hx)
      have hrestPreds : ∀ x ∈ rest, g.op x = .start ∨ g.controlPredecessors x ≠ [] := fun x hx =>
        hpreds x (List.mem_cons_of_mem id hx)
      cases n? with
      | none =>
          -- The node waits, so one of those behind it has to be ready.
          obtain ⟨s, left, hsweep, hswept, hlt⟩ := ih hrestLive hrestPreds
          refine ⟨s, id :: left, ?_, hswept.wait id, ?_⟩
          · rw [orderSweep, hnext, hsweep]
            rfl
          · rintro ⟨x, hx, hxready⟩
            rcases List.mem_cons.1 hx with rfl | hx
            · cases hready hxready
            · simpa using hlt ⟨x, hx, hxready⟩
      | some n =>
          -- The node is numbered, so the list is shorter whatever becomes of the others.
          have hagree := Graph.agree_setProp (fun _ => true) g id Props.sequence (.int n)
          have hsame : Graph.SameProgram g (g.setProp id Props.sequence (.int n)) := hagree.sameProgram
          obtain ⟨s, left, hsweep, hswept, -⟩ :=
            ih (g := g.setProp id Props.sequence (.int n)) (fun x hx => by rw [hagree.has]; exact hrestLive x hx)
              (fun x hx => by rw [hagree.op, hsame.controlPredecessors]; exact hrestPreds x hx)
          refine ⟨s, left, ?_, hswept.number (hlive id List.mem_cons_self), fun _ => ?_⟩
          · rw [orderSweep, hnext]
            exact hsweep
          · exact Nat.lt_succ_of_le hswept.length_le

/-- Among nodes that wait the one of least rank is ready. -/
theorem Orderable.exists_ready {g s : Graph} (h : Orderable g) (hg : g.Consistent)
    (hsame : Graph.SameProgram g s) {waiting : List NodeId} (hwaiting : waiting ≠ [])
    (hcovered : ∀ id, g.isFixed id = true → id ∈ waiting ∨ Numbered s id) : ∃ id ∈ waiting, Ready s id := by
  obtain ⟨rank, hrank⟩ := h.ranked
  obtain ⟨first, hfirst⟩ := List.exists_mem_of_ne_nil _ hwaiting
  obtain ⟨id, ⟨hid, hleast⟩⟩ : ∃ id, id ∈ waiting ∧ ∀ x ∈ waiting, rank id ≤ rank x := by
    obtain ⟨id, hid, hmin⟩ := WellFounded.has_min (InvImage.wf rank Nat.lt_wfRel.wf) {x | x ∈ waiting} ⟨first, hfirst⟩
    exact ⟨id, hid, fun x hx => Nat.le_of_not_lt (hmin x hx)⟩
  refine ⟨id, hid, ?_⟩
  by_cases hop : g.op id = .start
  · exact .inl (by rw [hsame.op]; exact hop)
  · refine .inr fun a ha => ?_
    rw [hsame.controlPredecessors] at ha
    obtain ⟨role, hrole, hpos⟩ := (mem_controlPredecessors_iff hg).1 ha
    have hfixed : g.isFixed a = true := hg.isFixed_iff.2 (.inr (.inr ⟨id, role, hrole, hpos⟩))
    -- A predecessor that waits would rank below the least.
    refine (hcovered a hfixed).resolve_left fun hwait => ?_
    exact Nat.lt_irrefl _ (Nat.lt_of_lt_of_le (hrank ⟨a, id, role⟩ hrole hpos hop) (hleast a hwait))

/-- The loop over an orderable graph succeeds: it gives up only after a sweep that numbers
    nothing, and every sweep has a node that is ready. -/
theorem Orderable.orderLoop_eq_done {g : Graph} (h : Orderable g) (hg : g.Consistent) {sweeps : Nat} {s : Graph}
    {waiting : List NodeId} (hagree : Graph.Agree (fun _ => true) g s)
    (hfixed : ∀ id ∈ waiting, g.isFixed id = true)
    (hcovered : ∀ id, g.isFixed id = true → id ∈ waiting ∨ Numbered s id) :
    ∃ ordered, orderLoop sweeps s waiting = .done ordered () := by
  induction sweeps generalizing s waiting with
  | zero => cases waiting <;> exact ⟨s, rfl⟩
  | succ sweeps ih =>
      rcases waiting with _ | ⟨first, rest⟩
      · exact ⟨s, rfl⟩
      · have hsame : Graph.SameProgram g s := hagree.sameProgram
        have hready := h.exists_ready hg hsame (List.cons_ne_nil first rest) hcovered
        have hlive : ∀ id ∈ first :: rest, s.has id = true := by
          intro id hid
          rw [hagree.has]
          exact Graph.has_of_isFixed (hfixed id hid)
        have hpreds : ∀ id ∈ first :: rest, s.op id = .start ∨ s.controlPredecessors id ≠ [] := by
          intro id hid
          rw [hagree.op, hsame.controlPredecessors]
          refine Decidable.or_iff_not_imp_left.2 fun hop => ?_
          obtain ⟨a, ha⟩ := h.reached id (hfixed id hid) hop
          exact List.ne_nil_of_mem ((mem_controlPredecessors_iff hg).2 ha)
        obtain ⟨s', left, hsweep, hswept, hlt⟩ := orderSweep_progress hlive hpreds
        rw [orderLoop, hsweep]
        · cases left with
          | nil => exact ⟨s', rfl⟩
          | cons other more =>
              have hshort := hlt hready
              have hnext := ih (hagree.trans hswept.agree) (fun id hid => hfixed id (hswept.subset hid)) fun id hid =>
                (hcovered id hid).elim (hswept.covered id) fun hnumbered => .inr (hswept.kept id hnumbered)
              simp only [Outcome.andThen, if_neg (Nat.ne_of_lt hshort)]
              exact hnext
        · simp

/-- An orderable graph is numbered. -/
theorem orderFixed_of_orderable {g : Graph} (hg : g.Consistent) (h : Orderable g) :
    ∃ ordered, orderFixed g = .done ordered () := by
  refine h.orderLoop_eq_done hg (.refl _ g) (fun id hid => (List.mem_filter.1 hid).2) fun id hfixed => .inl ?_
  exact List.mem_filter.2 ⟨Graph.mem_ids.2 (Graph.has_of_isFixed hfixed), hfixed⟩

end SeaOfNodes.Schedule
