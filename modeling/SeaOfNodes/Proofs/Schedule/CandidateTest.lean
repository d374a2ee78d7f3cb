/-
  SeaOfNodes.Proofs.Schedule.CandidateTest

  Which anchors pass the test of a candidate.  A value that several places need is
  tested, so its anchor passes.  One that a single place needs is anchored there
  without a test: it goes where that place goes, along single uses up to a fixed
  node or to a value that several places need.  From there control leads to its use,
  and it leads there from its floating inputs; whether it does from the fixed ones
  nobody asks.
-/
import SeaOfNodes.Proofs.Schedule.LatestPlace

namespace SeaOfNodes.Schedule

open Relation

/-- A floating value is needed in one place only. -/
def SoleUse (g : Graph) (id site : NodeId) : Prop :=
  g.isFixed id = false ∧ g.useSites id ≠ [] ∧ ∀ x ∈ g.useSites id, x = site

/-- A floating value with a use is needed in one place or in several. -/
theorem manyUses_or_soleUse {g : Graph} {id : NodeId} (hfloating : g.isFixed id = false) (hused : g.useSites id ≠ []) :
    ManyUses g id ∨ ∃ site, SoleUse g id site := by
  obtain ⟨site, hsite⟩ := List.exists_mem_of_ne_nil _ hused
  by_cases hall : ∀ x ∈ g.useSites id, x = site
  · exact .inr ⟨site, hfloating, hused, hall⟩
  · push Not at hall
    obtain ⟨other, hother, hne⟩ := hall
    exact .inl ⟨other, hother, site, hsite, hne⟩

section Agree

variable {g s : Graph} (h : Graph.SameProgram g s)
include h

theorem ManyUses.agree (id : NodeId) : ManyUses s id ↔ ManyUses g id := by
  rw [ManyUses, ManyUses, h.useSites]

theorem SoleUse.agree : SoleUse s = SoleUse g := by
  funext id site
  rw [SoleUse, SoleUse, h.useSites, h.isFixed]

end Agree

/-! ## After anchoring -/

section Anchors

variable {g : Graph} {a : Anchoring} (hg : g.Consistent)
  (hfree : ∀ id, g.isFixed id = false → g.outputsNamed id .globalSchedule = []) (hrun : anchorFloating g = .done a ())
include hg hfree hrun

/-- The test of the place a value has comes down to the fixed inputs: the uses are
    reached, and an input that floats is placed before its reader. -/
theorem isCandidate_place_iff {id anchor last : NodeId} (hhas : g.has id = true) (hfloating : g.isFixed id = false)
    (hlast : PlacedAt a.graph id last) (hanchor : PlacedAt a.graph anchor last) :
    isCandidate a.graph anchor (distinct (g.valueInputs id)) (distinct (g.useSites id)) = .ok true ↔
      ∀ input ∈ g.valueInputs id, g.isFixed input = true → ControlPath g input last := by
  have h := placing_of_anchorFloating hfree hrun
  have hsame := h.sameProgram
  rw [isCandidate_eq_ok_true]
  simp only [mem_distinct]
  constructor
  · intro htest input hinput hfixed
    rw [← hsame.isFixed] at hfixed
    rw [← ControlPath.agree hsame]
    exact (anchorPath_of_isFixed hfixed hanchor).1 (htest.1 input hinput (by simp [isPlaced, hfixed]))
  · intro hinputs
    refine ⟨fun input hinput _ => ?_, fun site hsite _ => ?_⟩
    · cases hfixed : g.isFixed input with
      | true =>
          refine (anchorPath_of_isFixed (by rw [hsame.isFixed]; exact hfixed) hanchor).2 ?_
          rw [ControlPath.agree hsame]
          exact hinputs input hinput hfixed
      | false =>
          obtain ⟨-, lastInput, hlastInput, hsites⟩ :=
            h.settled input (hg.has_of_mem_valueInputs hinput) hfixed List.not_mem_nil
          obtain ⟨lastSite, hlastSite, hpath⟩ := hsites id (by
            rw [hsame.useSites]
            exact hg.mem_useSites_of_input hfloating hinput)
          rw [hlastSite.unique hlast] at hpath
          exact ⟨lastInput, last, hlastInput, hanchor, hpath⟩
    · obtain ⟨-, last', hlast', hsites⟩ := h.settled id hhas hfloating List.not_mem_nil
      obtain ⟨lastSite, hlastSite, hpath⟩ := hsites site (by rw [hsame.useSites]; exact hsite)
      rw [hlast'.unique hlast] at hpath
      exact ⟨last, lastSite, hanchor, hlastSite, hpath⟩

omit hg in
/-- A chain of anchors follows the only uses until it comes to a fixed node or to a
    value with several. -/
theorem exists_lastUse {id last : NodeId} {passed : List NodeId} (hchain : AnchorChain a.graph id passed last) :
    ∃ y, ReflTransGen (SoleUse g) id y ∧ PlacedAt a.graph y last ∧ (y = last ∨ ManyUses g y) := by
  have h := placing_of_anchorFloating hfree hrun
  have hsame := h.sameProgram
  induction hchain with
  | @fixed id hfixed => exact ⟨id, .refl, ⟨[], .fixed hfixed⟩, .inl rfl⟩
  | @anchored id e rest last hfloating hone htail ih =>
      have hmem : e ∈ a.graph.outputsNamed id .globalSchedule := by simp [hone]
      have hhas : g.has id = true := by
        rw [← hsame.has]
        exact Graph.has_of_mem_outputs (List.mem_of_mem_filter hmem)
      have hfloats : g.isFixed id = false := by
        rw [← hsame.isFixed]
        exact hfloating
      obtain ⟨hused, -⟩ := h.settled id hhas hfloats List.not_mem_nil
      rw [hsame.useSites] at hused
      rcases manyUses_or_soleUse hfloats hused with hmany | ⟨site, hsole⟩
      · exact ⟨id, .refl, ⟨_, .anchored hfloating hone htail⟩, .inr hmany⟩
      · have hedge : anchorEdge id site ∈ a.graph.outputsNamed id .globalSchedule :=
          List.mem_filter.2 ⟨anchorEdge_of_sole_use hfree hrun hhas hfloats hsole.2.2, rfl⟩
        rw [hone, List.mem_singleton] at hedge
        obtain ⟨y, hpath, hplaced, hend⟩ := ih
        refine ⟨y, .head ?_ hpath, hplaced, hend⟩
        rw [← hedge]
        exact hsole

end Anchors

/-- The anchor of a floating value passes the test of a candidate when control leads from
    each fixed input to the place where its uses end up.  With several uses it always
    does; a single use is followed to a fixed node or to a value with several. -/
theorem isCandidate_anchor_iff {g ordered : Graph} {a : Anchoring} (hg : g.Consistent)
    (hfree : ∀ id ∈ g.ids, g.isFloating id = true → g.outputsNamed id .globalSchedule = [])
    (horder : orderFixed g = .done ordered ()) (hrun : anchorFloating ordered = .done a ()) :
    ∀ id ∈ g.ids, g.isFloating id = true → ∃ e last y,
      a.graph.outputsNamed id .globalSchedule = [e] ∧ fixedAnchor a.graph id = .ok last ∧
      (isCandidate a.graph e.target (distinct (g.valueInputs id)) (distinct (g.useSites id)) = .ok true ↔
        ∀ input ∈ g.valueInputs id, g.isFixed input = true → ControlPath g input last) ∧
      (ManyUses g id → ∀ input ∈ g.valueInputs id, g.isFixed input = true → ControlPath g input last) ∧
      ReflTransGen (SoleUse g) id y ∧ fixedAnchor a.graph y = .ok last ∧ (y = last ∨ ManyUses g y) := by
  intro id hid hfloating
  have hsame := agree_orderFixed (fun _ => true) horder
  have hprogram : Graph.SameProgram g ordered := hsame.sameProgram
  have hordered : ordered.Consistent := hg.congr hsame.inputs_eq hsame.outputs_eq
  have hfreed := free_of_orderFixed hfree horder
  have h := placing_of_anchorFloating hfreed hrun
  have hhas : ordered.has id = true := by
    rw [hprogram.has]
    exact Graph.mem_ids.1 hid
  have hfloats : ordered.isFixed id = false := by
    rw [hprogram.isFixed]
    simpa [Graph.isFloating] using hfloating
  obtain ⟨-, last, ⟨passed, hchain⟩, -⟩ := h.settled id hhas hfloats List.not_mem_nil
  obtain ⟨y, hpath, hplaced, hend⟩ := exists_lastUse hfreed hrun hchain
  rw [SoleUse.agree hprogram] at hpath
  rw [ManyUses.agree hprogram] at hend
  cases hchain with
  | fixed hfixed =>
      rw [h.sameProgram.isFixed, hfloats] at hfixed
      cases hfixed
  | @anchored _ e rest _ hnot hone htail =>
      have hlast : PlacedAt a.graph id last := ⟨_, .anchored hnot hone htail⟩
      have htest := isCandidate_place_iff hordered hfreed hrun hhas hfloats hlast ⟨rest, htail⟩
      rw [hprogram.valueInputs, hprogram.useSites, ControlPath.agree hprogram] at htest
      simp only [hprogram.isFixed] at htest
      refine ⟨e, last, y, hone, fixedAnchor_eq_ok.2 hlast, htest, fun hmany input hinput hfixed => ?_, hpath,
        fixedAnchor_eq_ok.2 hplaced, hend⟩
      obtain ⟨last', top, hlast', -, ⟨hinputs, -⟩, -⟩ := sunk_of_anchorFloating hg hfree horder hrun id hid hfloating hmany
      rw [(fixedAnchor_eq_ok.1 hlast').unique hlast] at hinputs
      have hall := hprogram.trans h.sameProgram
      rw [← ControlPath.agree hall]
      exact hinputs input (by rw [hall.valueInputs]; exact hinput) (by rw [hall.isFixed]; exact hfixed)

/-- A send whose value is negated twice before a store reads it. -/
def twoNegations : Graph :=
  Graph.assemble [.start, .send, .not, .not, .store, .finish]
    [⟨0, 1, .control⟩, ⟨1, 4, .control⟩, ⟨4, 5, .control⟩, ⟨1, 2, .value⟩, ⟨2, 3, .value⟩, ⟨3, 4, .value⟩]

/-- The first negation goes with the second to the store, which the send reaches. -/
theorem isCandidate_twoNegations_anchor :
    (orderFixed twoNegations).result = .ok () ∧ (anchorFloating (orderFixed twoNegations).state).result = .ok () ∧
      (anchorFloating (orderFixed twoNegations).state).state.graph.outputsNamed 2 .globalSchedule = [anchorEdge 2 3] ∧
      fixedAnchor (anchorFloating (orderFixed twoNegations).state).state.graph 2 = .ok 4 ∧
      isCandidate (anchorFloating (orderFixed twoNegations).state).state.graph 3 (distinct (twoNegations.valueInputs 2))
        (distinct (twoNegations.useSites 2)) = .ok true := by
  have hconsistent : twoNegations.Consistent := Graph.consistent_assemble (by decide)
  have horder : (orderFixed twoNegations).result = .ok () := by cbv
  have hrun : (anchorFloating (orderFixed twoNegations).state).result = .ok () := by cbv
  have hedge : (anchorFloating (orderFixed twoNegations).state).state.graph.outputsNamed 2 .globalSchedule
      = [anchorEdge 2 3] := by cbv
  have hplace : fixedAnchor (anchorFloating (orderFixed twoNegations).state).state.graph 2 = .ok 4 := by cbv
  obtain ⟨e, last, y, hone, hlast, htest, -⟩ := isCandidate_anchor_iff hconsistent (by decide +kernel)
    (Outcome.eq_done horder) (Outcome.eq_done hrun) 2 (by decide +kernel) (by decide +kernel)
  rw [hedge, List.cons.injEq] at hone
  rw [hplace, Except.ok.injEq] at hlast
  obtain ⟨rfl, -⟩ := hone
  subst hlast
  refine ⟨horder, hrun, hedge, hplace, htest.2 ?_⟩
  have hreach : ∀ input ∈ twoNegations.valueInputs 2, controlReaches twoNegations input 4 = true := by decide +kernel
  exact fun input hinput _ => controlReaches_iff.1 (hreach input hinput)

/-- A trace in one arm of a branch reads the negation of what a send in the other arm
    gives. -/
def siblingArms : Graph :=
  Graph.assemble [.start, .arg, .branch, .send, .not, .trace, .merge, .finish]
    [⟨0, 2, .control⟩, ⟨1, 2, .condition⟩, ⟨2, 3, .ifTrue⟩, ⟨2, 5, .ifFalse⟩, ⟨3, 4, .value⟩, ⟨4, 5, .value⟩,
      ⟨3, 6, .controlN 0⟩, ⟨5, 6, .controlN 1⟩, ⟨6, 7, .control⟩]

/-- The negation is anchored to the trace, although control leads from the send to no
    place that reaches it. -/
theorem not_isCandidate_siblingArms_anchor :
    siblingArms.Consistent ∧ (∀ id ∈ siblingArms.ids, (siblingArms.props id).has Props.sequence = false) ∧
      (orderFixed siblingArms).result = .ok () ∧ (anchorFloating (orderFixed siblingArms).state).result = .ok () ∧
      4 ∈ siblingArms.ids ∧ siblingArms.isFloating 4 = true ∧
      3 ∈ siblingArms.valueInputs 4 ∧ siblingArms.isFixed 3 = true ∧
      fixedAnchor (anchorFloating (orderFixed siblingArms).state).state.graph 4 = .ok 5 ∧
      ¬ ControlPath (anchorFloating (orderFixed siblingArms).state).state.graph 3 5 ∧
      isCandidate (anchorFloating (orderFixed siblingArms).state).state.graph 5 (distinct (siblingArms.valueInputs 4))
        (distinct (siblingArms.useSites 4)) = .ok false := by
  refine ⟨?_, by decide +kernel, by cbv, by cbv, by decide +kernel, by decide +kernel, by decide +kernel,
    by decide +kernel, by cbv, ?_, by cbv⟩
  · exact Graph.consistent_assemble (by decide)
  · rw [← controlReaches_iff, Bool.not_eq_true]
    cbv

end SeaOfNodes.Schedule
