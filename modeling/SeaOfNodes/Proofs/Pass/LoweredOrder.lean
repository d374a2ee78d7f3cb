/-
  SeaOfNodes.Proofs.Pass.LoweredOrder

  Lowering keeps a graph fit for scheduling: there is one start still, no edge is part
  of a schedule, and control can be ordered.  A tag node that is put in control flow
  stands between two nodes that were in order already, so there is room for it.
-/
import SeaOfNodes.Proofs.Pass.Lowering
import SeaOfNodes.Proofs.Schedule.Orderable

namespace SeaOfNodes.Schedule

open SeaOfNodes.Graph

/-- A floating node is spliced onto a value edge, where order has no part. -/
theorem Orderable.splice {g g' : Graph} {x : Edge} {mid : NodeId} (h : Spliced g g' x mid)
    (hvalue : x.role.isValue = true) (hg : g.Consistent) (hg' : g'.Consistent) (hop : (g'.op mid).isFixed = false)
    (horder : Orderable g) : Orderable g' := by
  obtain ⟨rank, hrank⟩ := horder.ranked
  refine ⟨fun id hfixed hstart => ?_, rank, fun e hrole hpos hstart => ?_⟩
  · -- No control edge is at the new node, so it is not fixed.
    have hne : id ≠ mid := by
      rintro rfl
      rcases hg'.isFixed_iff.1 hfixed with hfixed | hcontrolled
      · rw [hop] at hfixed
        cases hfixed
      · exact h.ne_mid (hg.has_of_controlled ((h.controlled_iff hvalue).1 hcontrolled)) rfl
    rw [h.op id hne] at hstart
    exact (h.entered_iff hvalue).2 (horder.reached id ((h.isFixed_iff hvalue hg hg' hne).1 hfixed) hstart)
  · have hpos := (h.control_iff hvalue hrole).1 hpos
    rw [h.op _ (h.ne_mid (hg.has_of_multiplicity hpos).2)] at hstart
    exact hrank e hrole hpos hstart

/-- Ranks are doubled to make room between a node and its successor. -/
theorem Orderable.sequence {g g' : Graph} {before mid after : NodeId} {role : Role}
    (h : Sequenced g g' before mid after) (hg : g.Consistent) (hg' : g'.Consistent) (hrole : role.isControl = true)
    (hnext : 0 < g.multiplicity ⟨before, after, role⟩) (hfree : ¬ g.Controlled mid) (horder : Orderable g) :
    Orderable g' := by
  have hfixed_iff : ∀ id, g'.isFixed id = true → g.isFixed id = true ∨ id = mid := by
    intro id hfixed
    rw [hg'.isFixed_iff, h.nodes.op, h.controlled_iff hrole hnext, ← or_assoc, ← hg.isFixed_iff] at hfixed
    exact hfixed
  obtain ⟨rank, hrank⟩ := horder.ranked
  have hentered : ∀ {a b : NodeId} {r : Role}, r.isControl = true → 0 < g.multiplicity ⟨a, b, r⟩ → a ≠ mid ∧ b ≠ mid := by
    intro a b r hr hpos
    constructor
    · rintro rfl
      exact hfree (.inr ⟨b, r, hr, hpos⟩)
    · rintro rfl
      exact hfree (.inl ⟨a, r, hr, hpos⟩)
  obtain ⟨hbefore, hafter⟩ := hentered hrole hnext
  -- Old ranks are even now, and the new node takes the odd one behind its predecessor.
  refine ⟨fun id hfixed hstart => ?_, fun id => if id = mid then 2 * rank before + 1 else 2 * rank id,
    fun e he hpos hstart => ?_⟩
  · rw [h.nodes.op] at hstart
    rw [h.entered_iff hrole hnext]
    exact (hfixed_iff id hfixed).imp_left fun hfixed => horder.reached id hfixed hstart
  · rw [h.nodes.op] at hstart
    rcases (h.edge e).1 hpos with hpos | rfl | rfl
    · obtain ⟨hsource, htarget⟩ := hentered he hpos
      have hlt := hrank e he hpos hstart
      dsimp only
      rw [if_neg hsource, if_neg htarget]
      omega
    · dsimp only
      rw [if_neg hbefore, if_pos rfl]
      omega
    · have hlt : rank before < rank after := hrank ⟨before, after, role⟩ hrole hnext hstart
      dsimp only
      rw [if_pos rfl, if_neg hafter]
      omega

theorem Orderable.renamed {g g' : Graph} {old new : NodeId} (h : Renamed g g' old new) (hg : g.Consistent)
    (hg' : g'.Consistent) (hop : (g'.op new).isFixed = (g.op old).isFixed) (hold : g.op old ≠ .start)
    (horder : Orderable g) : Orderable g' := by
  have hstart : ∀ {id : NodeId}, id ≠ old → g'.op id ≠ .start → g.op (rename new old id) ≠ .start := by
    intro id hid hstart
    rw [h.op_back hid] at hstart
    split at hstart
    · rename_i hnew
      rw [hnew, rename, if_pos rfl]
      exact hold
    · exact hstart
  obtain ⟨rank, hrank⟩ := horder.ranked
  refine ⟨fun id hfixed hid => ?_, fun id => rank (rename new old id), fun e hrole hpos hid => ?_⟩
  · have hne := (h.has_back (has_of_isFixed hfixed)).1
    refine (h.exists_input_iff hg hne Role.isControl).2 (horder.reached _ ?_ (hstart hne hid))
    exact (h.isFixed_iff hg hg' hop hne).1 hfixed
  · obtain ⟨-, htarget, hpos⟩ := (h.edge e).1 hpos
    exact hrank ⟨_, _, e.role⟩ hrole hpos (hstart htarget hid)

/-- Scheduling refuses no graph with one start and no schedule edges. -/
theorem checkSchedulable_of_unscheduled {g : Graph} (hroles : g.Unscheduled) (hstart : (g.find .start).length = 1)
    (hg : g.Consistent) : checkSchedulable g = .ok () := by
  have hnone : (g.ids.flatMap g.outputs).find? (fun e => e.role.isSchedule) = none := by
    refine List.find?_eq_none.2 fun e he => ?_
    obtain ⟨id, -, he⟩ := List.mem_flatMap.1 he
    have hsource := hg.source_eq id e he
    subst hsource
    rcases hroles e (multiplicity_pos.2 he) with hrole | hrole
    · simpa [unscheduled] using unscheduled_of_isControl hrole
    · simpa [unscheduled] using unscheduled_of_isValue hrole
  simp [checkSchedulable, hstart, hnone]

end SeaOfNodes.Schedule

namespace SeaOfNodes.Pass.Tagging

open SeaOfNodes.Graph SeaOfNodes.Schedule

theorem Step.orderable {g g' : Graph} (hg : g.Consistent) (hg' : g'.Consistent) (h : Step g g')
    (horder : Orderable g) : Orderable g' := by
  cases h with
  | untag hsplice hvalue _ hop _ => exact horder.splice hsplice hvalue hg hg' (by rw [hop]; rfl)
  | tag hsplice hvalue _ hop _ => exact horder.splice hsplice hvalue hg hg' (by rw [hop]; rfl)
  | sequence hsequence _ _ _ _ hfree hrole hnext => exact horder.sequence hsequence hg hg' hrole hnext hfree
  | test hrename hold hnew _ => exact horder.renamed hrename hg hg' (by rw [hold, hnew]; rfl) (by rw [hold]; decide)
  | add hrename hold hnew _ => exact horder.renamed hrename hg hg' (by rw [hold, hnew]; rfl) (by rw [hold]; decide)

theorem unscheduled_of_spliced {g g' : Graph} {x : Edge} {mid : NodeId} (h : Spliced g g' x mid)
    (hvalue : x.role.isValue = true) (hroles : g.Unscheduled) : g'.Unscheduled := by
  intro e he
  rcases h.old e he with rfl | rfl | he
  · rw [spliceHead_of_isValue hvalue]
    exact .inr rfl
  · exact .inr hvalue
  · exact hroles e he

theorem unscheduled_of_renamed {g g' : Graph} {old new : NodeId} (h : Renamed g g' old new)
    (hroles : g.Unscheduled) : g'.Unscheduled := by
  intro e he
  have hrole := hroles _ ((h.edge e).1 he).2.2
  exact hrole

theorem Step.unscheduled {g g' : Graph} (h : Step g g') (hroles : g.Unscheduled) : g'.Unscheduled := by
  cases h with
  | untag hsplice hvalue _ _ _ => exact unscheduled_of_spliced hsplice hvalue hroles
  | tag hsplice hvalue _ _ _ => exact unscheduled_of_spliced hsplice hvalue hroles
  | sequence hsequence _ _ _ _ _ _ _ =>
      intro e he
      rcases (hsequence.edge e).1 he with he | rfl | rfl
      · exact hroles e he
      · exact .inl rfl
      · exact .inl rfl
  | test hrename _ _ _ => exact unscheduled_of_renamed hrename hroles
  | add hrename _ _ _ => exact unscheduled_of_renamed hrename hroles

/-- No step makes a start or takes one away. -/
theorem Step.op_start_iff {g g' : Graph} (h : Step g g') (id : NodeId) : g'.op id = .start ↔ g.op id = .start := by
  have hspliced : ∀ {x : Edge} {mid : NodeId}, Spliced g g' x mid → g'.op mid ≠ .start →
      (g'.op id = .start ↔ g.op id = .start) := by
    intro x mid hsplice hmid
    by_cases hid : id = mid
    · subst hid
      exact iff_of_false hmid (op_ne_of_fresh hsplice.fresh (by decide))
    · rw [hsplice.op id hid]
  have hrenamed : ∀ {old new : NodeId}, Renamed g g' old new → g.op old ≠ .start → g'.op new ≠ .start →
      (g'.op id = .start ↔ g.op id = .start) := by
    intro old new hrename hold hnew
    rw [hrename.op_eq_iff (by decide) hnew]
    refine and_iff_left_of_imp ?_
    rintro hid rfl
    exact hold hid
  cases h with
  | untag hsplice _ _ hop _ => exact hspliced hsplice (by rw [hop]; decide)
  | tag hsplice _ _ hop _ => exact hspliced hsplice (by rw [hop]; decide)
  | sequence hsequence _ _ _ _ _ _ _ => rw [hsequence.nodes.op]
  | test hrename hold hnew _ => exact hrenamed hrename (by rw [hold]; decide) (by rw [hnew]; decide)
  | add hrename hold hnew _ => exact hrenamed hrename (by rw [hold]; decide) (by rw [hnew]; decide)

/-- Every node keeps its place among the starts, so there are as many of them. -/
theorem Lowers.length_find_start {g g' : Graph} (h : Lowers g g') :
    (g'.find .start).length = (g.find .start).length := by
  have hops : ∀ id, g'.op id = .start ↔ g.op id = .start := by
    refine h.keeps (fun s => ∀ id, s.op id = .start ↔ g.op id = .start) (fun _ _ hstep hs id => ?_)
      fun _ => Iff.rfl
    rw [hstep.op_start_iff, hs]
  exact length_find_eq (by decide) hops

/-- A graph that can be numbered can be once it is lowered. -/
theorem Lowers.orderFixed {g g' : Graph} (h : Lowers g g') (hg' : g'.Consistent) (horder : Orderable g) :
    ∃ ordered, orderFixed g' = .done ordered () :=
  orderFixed_of_orderable hg' (h.keeps Orderable (fun hs hs' hstep => hstep.orderable hs hs') horder)

theorem Lowers.checkSchedulable {g g' : Graph} (h : Lowers g g') (hg' : g'.Consistent) (hroles : g.Unscheduled)
    (hstart : (g.find .start).length = 1) : checkSchedulable g' = .ok () := by
  refine checkSchedulable_of_unscheduled (h.keeps Unscheduled (fun _ _ hstep => hstep.unscheduled) hroles) ?_ hg'
  rw [h.length_find_start, hstart]

end SeaOfNodes.Pass.Tagging
