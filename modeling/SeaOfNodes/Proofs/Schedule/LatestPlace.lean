/-
  SeaOfNodes.Proofs.Schedule.LatestPlace

  A value that several places need sinks as late as it legally can.  Its anchor is
  chosen while other nodes still wait, but nothing that the choice looks at changes
  afterwards: the uses are placed by then and keep their places, and those of the
  inputs that are placed are the fixed ones, since a floating input waits for the
  node that reads it.  So the anchor that is the latest candidate when the node has
  its turn is the latest legal place in the end, whatever the order of the turns.
-/
import SeaOfNodes.Proofs.Schedule.Anchoring
import Mathlib

namespace SeaOfNodes.Schedule

open Relation

/-! ## Legal places -/

/-- A value may be computed at a fixed node: control leads there from every fixed input
    and from there to the fixed anchor of every use. -/
def LegalPlace (g : Graph) (id p : NodeId) : Prop :=
  (∀ input ∈ g.valueInputs id, g.isFixed input = true → ControlPath g input p) ∧
    ∀ site ∈ g.useSites id, ∃ lastSite, fixedAnchor g site = .ok lastSite ∧ ControlPath g p lastSite

/-- The fixed anchor of a value is a legal place, and no legal one but a start has a
    higher number. -/
def Sunk (g : Graph) (id : NodeId) : Prop :=
  ∃ last top, fixedAnchor g id = .ok last ∧ sequence g last = .ok top ∧ LegalPlace g id last ∧
    ∀ p, g.isFixed p = true → g.op p ≠ .start → LegalPlace g id p → ∃ n, sequence g p = .ok n ∧ n.toInt ≤ top.toInt

/-- At least two places need a value. -/
def ManyUses (g : Graph) (id : NodeId) : Prop := ∃ site ∈ g.useSites id, ∃ other ∈ g.useSites id, site ≠ other

/-- Every shared value that does not wait is sunk. -/
def AllSunk (g s : Graph) (waiting : List NodeId) : Prop :=
  ∀ id, g.has id = true → g.isFixed id = false → id ∉ waiting → ManyUses g id → Sunk s id

/-- Control leads from a fixed node to the place of another node as one expects. -/
theorem anchorPath_of_isFixed {g : Graph} {p id last : NodeId} (hp : g.isFixed p = true) (hlast : PlacedAt g id last) :
    AnchorPath g p id ↔ ControlPath g p last := by
  have hself : PlacedAt g p p := ⟨[], .fixed hp⟩
  constructor
  · rintro ⟨lastP, lastId, hP, hId, hpath⟩
    rw [hP.unique hself, hId.unique hlast] at hpath
    exact hpath
  · intro hpath
    exact ⟨p, last, hself, hlast, hpath⟩

/-! ## One placement -/

theorem sequence_link_anchor {s : Graph} (id anchor x : NodeId) (n : Int64) :
    sequence (s.linkEdge (anchorEdge id anchor)) x = .ok n ↔ sequence s x = .ok n := by
  rw [sequence_eq_ok, sequence_eq_ok, Graph.props_linkEdge]

section Link

variable {s : Graph} {id anchor : NodeId} (hid : s.has id = true) (hanchor : s.has anchor = true)
  (hfree : s.outputsNamed id .globalSchedule = [])
include hid hanchor hfree

/-- Which places are legal for a value whose uses are placed does not depend on the
    nodes that are placed later. -/
theorem legalPlace_link_anchor {x p : NodeId} (hplaced : ∀ site ∈ s.useSites x, ∃ last, PlacedAt s site last) :
    LegalPlace (s.linkEdge (anchorEdge id anchor)) x p ↔ LegalPlace s x p := by
  have hsame := sameProgram_link_anchor hid hanchor
  -- The uses have their places, so a new anchor elsewhere does not move them.
  have hsites : ∀ site ∈ s.useSites x, ∀ last,
      fixedAnchor (s.linkEdge (anchorEdge id anchor)) site = .ok last ↔ fixedAnchor s site = .ok last := by
    intro site hsite last
    rw [fixedAnchor_eq_ok, fixedAnchor_eq_ok]
    obtain ⟨last', hlast'⟩ := hplaced site hsite
    constructor
    · intro hlast
      rw [hlast.unique (hlast'.link_anchor hid hanchor hfree)]
      exact hlast'
    · intro hlast
      exact hlast.link_anchor hid hanchor hfree
  unfold LegalPlace
  rw [hsame.valueInputs, hsame.useSites, ControlPath.agree hsame]
  simp only [hsame.isFixed]
  refine and_congr_right fun _ => forall₂_congr fun site hsite => exists_congr fun last => ?_
  rw [hsites site hsite]

/-- A sunk value stays where it is, and no later place becomes legal. -/
theorem Sunk.link_anchor {x : NodeId} (h : Sunk s x) : Sunk (s.linkEdge (anchorEdge id anchor)) x := by
  have hsame := sameProgram_link_anchor hid hanchor
  obtain ⟨last, top, hlast, htop, hlegal, hlatest⟩ := h
  have hplaced : ∀ site ∈ s.useSites x, ∃ lastSite, PlacedAt s site lastSite := fun site hsite => by
    obtain ⟨lastSite, hlastSite, -⟩ := hlegal.2 site hsite
    exact ⟨lastSite, fixedAnchor_eq_ok.1 hlastSite⟩
  have hiff := fun p => legalPlace_link_anchor hid hanchor hfree (p := p) hplaced
  have hsequence := sequence_link_anchor (s := s) id anchor
  refine ⟨last, top, ?_, (hsequence last top).2 htop, (hiff last).2 hlegal, fun p hfixed hop hp => ?_⟩
  · rw [fixedAnchor_eq_ok] at hlast ⊢
    exact hlast.link_anchor hid hanchor hfree
  · rw [hsame.isFixed] at hfixed
    rw [hsame.op] at hop
    obtain ⟨n, hn, hle⟩ := hlatest p hfixed hop ((hiff p).1 hp)
    exact ⟨n, (hsequence p n).2 hn, hle⟩

end Link

/-- A shared value is sunk when it has its turn. -/
theorem Placing.sunk_of_anchorFor {g s : Graph} {waiting : List NodeId} (h : Placing g s waiting) (hs : s.Consistent)
    {id anchor : NodeId} (hwait : id ∈ waiting) (hfor : anchorFor s id = .ok (some anchor)) (hid : s.has id = true)
    (hanchor : s.has anchor = true) (hshared : ManyUses s id) : Sunk (s.linkEdge (anchorEdge id anchor)) id := by
  have hfree := h.unplaced id hwait
  have hsame := sameProgram_link_anchor hid hanchor
  have hfloating : s.isFixed id = false := by
    rw [h.sameProgram.isFixed]
    exact h.floating id hwait
  obtain ⟨huses, -, hchoice⟩ := anchorFor_eq_some hfor hanchor
  have hplaced : ∀ site ∈ s.useSites id, ∃ last, PlacedAt s site last := fun site hsite =>
    h.placedAt (huses site hsite)
  -- A use that is the only one cannot differ from another.
  have hbest : SharedAnchor s id anchor := by
    refine hchoice.resolve_left fun hone => ?_
    obtain ⟨site, hsite, other, hother, hne⟩ := hshared
    exact hne ((hone site hsite).trans (hone other hother).symm)
  obtain ⟨last, top, hlast, htop, hlatest⟩ := hbest.latest
  have hiff := fun p => legalPlace_link_anchor hid hanchor hfree (p := p) hplaced
  have hsequence := sequence_link_anchor (s := s) id anchor
  refine ⟨last, top, ?_, (hsequence last top).2 htop, (hiff last).2 ⟨fun input hinput hfixed => ?_, fun site hsite => ?_⟩,
    fun p hfixed hop hp => ?_⟩
  · exact fixedAnchor_eq_ok.2 (hlast.link_anchor_self hfloating hid hanchor hfree)
  · -- The place is legal: the anchor was tested against the inputs and the uses.
    have hpath := hbest.inputs input hinput (by simp [isPlaced, hfixed])
    exact (anchorPath_of_isFixed hfixed hlast).1 hpath
  · obtain ⟨lastAnchor, lastSite, hlastAnchor, hlastSite, hpath⟩ := hbest.uses site hsite
    rw [hlastAnchor.unique hlast] at hpath
    exact ⟨lastSite, fixedAnchor_eq_ok.2 hlastSite, hpath⟩
  · rw [hsame.isFixed] at hfixed
    rw [hsame.op] at hop
    obtain ⟨hinputs, hsites⟩ := (hiff p).1 hp
    have hself : PlacedAt s p p := ⟨[], .fixed hfixed⟩
    have hne : p ≠ id := by
      rintro rfl
      rw [hfixed] at hfloating
      cases hfloating
    -- What is legal in the end was a candidate: the inputs placed by now are fixed.
    obtain ⟨lastP, n, hlastP, hn, hle⟩ := hlatest p (Graph.mem_ids.2 (Graph.has_of_isFixed hfixed)) hne hop
      (by simp [isPlaced, hfixed])
      (fun input hinput hplacedInput => by
        have hfixedInput := h.isFixed_of_input hs hwait hinput hplacedInput
        exact (anchorPath_of_isFixed hfixedInput hself).2 (hinputs input hinput hfixedInput))
      (fun site hsite => by
        obtain ⟨lastSite, hlastSite, hpath⟩ := hsites site hsite
        exact (anchorPath_of_isFixed hfixed (fixedAnchor_eq_ok.1 hlastSite)).2 hpath)
    rw [hlastP.unique hself] at hn
    exact ⟨n, (hsequence p n).2 hn, hle⟩

/-- A placement keeps the shared values sunk. -/
theorem Placing.allSunk_place {g s : Graph} {front back : List NodeId} {id anchor : NodeId} (hg : g.Consistent)
    (h : Placing g s (front ++ id :: back)) (hsunk : AllSunk g s (front ++ id :: back))
    (hfor : anchorFor s id = .ok (some anchor)) (hid : s.has id = true) (hanchor : s.has anchor = true) :
    AllSunk g (s.linkEdge (anchorEdge id anchor)) (front ++ back) := by
  have hwait : id ∈ front ++ id :: back := by simp
  intro x hhas hfloating hx hshared
  by_cases hxid : x = id
  · -- The node that has its turn is sunk now; the others were before.
    subst hxid
    refine h.sunk_of_anchorFor (h.consistent hg) hwait hfor hid hanchor ?_
    rw [ManyUses, h.sameProgram.useSites]
    exact hshared
  · refine (hsunk x hhas hfloating ?_ hshared).link_anchor hid hanchor (h.unplaced id hwait)
    simp only [List.mem_append, List.mem_cons, not_or] at hx ⊢
    exact ⟨hx.1, hxid, hx.2⟩

/-! ## The result -/

/-- Numbering gives no node an anchor. -/
theorem free_of_orderFixed {g ordered : Graph}
    (hfree : ∀ id ∈ g.ids, g.isFloating id = true → g.outputsNamed id .globalSchedule = [])
    (horder : orderFixed g = .done ordered ()) (id : NodeId) (hfloating : ordered.isFixed id = false) :
    ordered.outputsNamed id .globalSchedule = [] := by
  have hsame := agree_orderFixed (fun _ => true) horder
  rw [hsame.sameProgram.isFixed] at hfloating
  rw [Graph.outputsNamed, hsame.outputsWhere_of_le fun _ _ => rfl]
  by_contra hne
  obtain ⟨e, he⟩ := List.exists_mem_of_ne_nil _ hne
  have hlive : id ∈ g.ids := Graph.mem_ids.2 (Graph.has_of_mem_outputs (List.mem_of_mem_filter he))
  exact hne (hfree id hlive (by rw [Graph.isFloating, hfloating]; rfl))

/-- Once anchoring has succeeded, every floating value that several places need is sunk,
    provided that no floating node had an anchor before. -/
theorem sunk_of_anchorFloating {g ordered : Graph} {a : Anchoring} (hg : g.Consistent)
    (hfree : ∀ id ∈ g.ids, g.isFloating id = true → g.outputsNamed id .globalSchedule = [])
    (horder : orderFixed g = .done ordered ()) (hanchor : anchorFloating ordered = .done a ()) :
    ∀ id ∈ g.ids, g.isFloating id = true → ManyUses g id → Sunk a.graph id := by
  have hsame := agree_orderFixed (fun _ => true) horder
  have hprogram : Graph.SameProgram g ordered := hsame.sameProgram
  have hordered : ordered.Consistent := hg.congr hsame.inputs_eq hsame.outputs_eq
  -- Before the first turn all floating nodes wait.
  have hnone : AllSunk ordered ordered (ordered.ids.filter ordered.isFloating) := by
    intro x hhas hfloating hx
    exact absurd (List.mem_filter.2 ⟨Graph.mem_ids.2 hhas, by simp [Graph.isFloating, hfloating]⟩) hx
  obtain ⟨-, hsunk⟩ := anchorFloating_keeps (P := fun s waiting => Placing ordered s waiting ∧ AllSunk ordered s waiting)
    (fun hs hfor hid hlink => ⟨hs.1.place hfor hid hlink, hs.1.allSunk_place hordered hs.2 hfor hid hlink⟩)
    ⟨placing_initial (free_of_orderFixed hfree horder), hnone⟩ hanchor
  intro id hid hfloating hshared
  refine hsunk id ?_ ?_ List.not_mem_nil ?_
  · rw [hprogram.has]
    exact Graph.mem_ids.1 hid
  · rw [hprogram.isFixed]
    simpa [Graph.isFloating] using hfloating
  · rw [ManyUses, hprogram.useSites]
    exact hshared

/-- A negation that two stores of a straight line read, one behind the other. -/
def twoStores : Graph :=
  Graph.assemble [.start, .send, .not, .store, .store, .finish]
    [⟨0, 1, .control⟩, ⟨1, 3, .control⟩, ⟨3, 4, .control⟩, ⟨4, 5, .control⟩, ⟨1, 2, .value⟩, ⟨2, 3, .value⟩,
      ⟨2, 4, .value⟩]

theorem consistent_twoStores : twoStores.Consistent := Graph.consistent_assemble (by decide)

/-- The negation could be computed right behind the send that feeds it, but waits for
    the first store. -/
theorem sunk_twoStores :
    (orderFixed twoStores).result = .ok () ∧ (anchorFloating (orderFixed twoStores).state).result = .ok () ∧
      Sunk (anchorFloating (orderFixed twoStores).state).state.graph 2 ∧
      fixedAnchor (anchorFloating (orderFixed twoStores).state).state.graph 2 = .ok 3 := by
  have horder : (orderFixed twoStores).result = .ok () := by cbv
  have hanchor : (anchorFloating (orderFixed twoStores).state).result = .ok () := by cbv
  refine ⟨horder, hanchor, ?_, by cbv⟩
  refine sunk_of_anchorFloating consistent_twoStores ?_ (Outcome.eq_done horder) (Outcome.eq_done hanchor) 2
    (by decide +kernel) (by decide +kernel) ⟨3, by decide +kernel, 4, by decide +kernel, by decide⟩
  decide +kernel

/-- The same with an anchor for the negation to begin with. -/
def presetAnchor : Graph := twoStores.linkEdge (anchorEdge 2 3)

/-- Anchoring succeeds and gives the negation a second anchor, so it has no place. -/
theorem not_sunk_presetAnchor :
    presetAnchor.Consistent ∧ (∀ id ∈ presetAnchor.ids, (presetAnchor.props id).has Props.sequence = false) ∧
      (orderFixed presetAnchor).result = .ok () ∧ (anchorFloating (orderFixed presetAnchor).state).result = .ok () ∧
      2 ∈ presetAnchor.ids ∧ presetAnchor.isFloating 2 = true ∧ ManyUses presetAnchor 2 ∧
      ¬ Sunk (anchorFloating (orderFixed presetAnchor).state).state.graph 2 := by
  refine ⟨consistent_twoStores.linkEdge (by decide +kernel) (by decide +kernel), by decide +kernel, by cbv, by cbv,
    by decide +kernel, by decide +kernel, ⟨3, by decide +kernel, 4, by decide +kernel, by decide⟩, ?_⟩
  rintro ⟨last, top, hlast, -⟩
  have hfails : fixedAnchor (anchorFloating (orderFixed presetAnchor).state).state.graph 2
      = .error (.missingAnchor (.several ⟨2, .not⟩ 2)) := by cbv
  rw [hfails] at hlast
  cases hlast

end SeaOfNodes.Schedule
