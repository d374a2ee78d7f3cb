/-
  SeaOfNodes.Proofs.Schedule.Homes

  Graphs in which every floating node has one place to go.  Its home is a fixed node from
  which control leads to the homes of all its uses, and to which control leads from every
  other such node.  The fixed nodes have their numbers, and those grow along control, so
  that of all candidates those at home are the latest.  Anchoring then succeeds, whatever
  the order of the turns, and places every node at its home.
-/
import SeaOfNodes.Proofs.Graph.Conversions
import SeaOfNodes.Proofs.Schedule.AnchorTotality
import SeaOfNodes.Proofs.Schedule.Causes
import SeaOfNodes.Proofs.Schedule.LatestPlace
import SeaOfNodes.Proofs.Schedule.Precedence

namespace SeaOfNodes.Schedule

open Relation

/-! ## Homes -/

/-- A node in use that floats, and is not one of those set aside. -/
structure Floats (g : Graph) (aside : List NodeId) (id : NodeId) : Prop where
  live : g.has id = true
  floating : g.isFixed id = false
  counted : id ∉ aside

/-- Control leads from a node to the homes of all places that need a value. -/
def Serves (g : Graph) (home : NodeId → NodeId) (id c : NodeId) : Prop :=
  ∀ site ∈ g.useSites id, ControlPath g c (home site)

/-- One place for every floating node but those set aside: the latest from which control
    leads to all uses, and behind all fixed nodes that are read. -/
structure Homes (g : Graph) (aside : List NodeId) (home : NodeId → NodeId) : Prop where
  fixed : ∀ id, g.isFixed id = true → home id = id
  place : ∀ id, Floats g aside id → g.isFixed (home id) = true ∧ g.op (home id) ≠ .start
  serves : ∀ id, Floats g aside id → Serves g home id (home id)
  nearest : ∀ id, Floats g aside id → ∀ c, g.isFixed c = true → g.op c ≠ .start → Serves g home id c →
    ControlPath g c (home id)
  operands : ∀ x y, g.isFixed x = true → y ∈ g.consumers x → y ∉ aside → g.LeadsTo x (home y)
  founded : ∃ depth : NodeId → Nat, ∀ x y, Floats g aside x → Floats g aside y → y ∈ g.consumers x → depth y < depth x

/-! ## Numbers -/

/-- The fixed nodes are numbered from zero, and the numbers grow along control, which does
    not return to a start. -/
structure Timed (g : Graph) : Prop where
  consistent : g.Consistent
  numbered : ∀ id, g.isFixed id = true → ∃ n, sequence g id = .ok n ∧ 0 ≤ n.toInt
  later : ∀ a b m n, g.LeadsTo a b → sequence g a = .ok m → sequence g b = .ok n → m.toInt < n.toInt
  onward : ¬ Returns g

/-- The number of a fixed node. -/
def time (g : Graph) (id : NodeId) : Int :=
  match sequence g id with
  | .ok n => n.toInt
  | .error _ => 0

theorem time_eq {g : Graph} {id : NodeId} {n : Int64} (h : sequence g id = .ok n) : time g id = n.toInt := by
  rw [time, h]

theorem Ordered.timed {g o : Graph} (h : Ordered g o []) (hg : g.Consistent) (honward : ¬ Returns g) : Timed o := by
  have hsame : Graph.SameProgram g o := h.agree.sameProgram
  refine ⟨hg.congr h.agree.inputs_eq h.agree.outputs_eq, fun id hid => h.exists_sequence hid,
    fun a b m n hleads hm hn => ?_, ?_⟩
  · rw [Graph.LeadsTo, funext hsame.controlSuccessors] at hleads
    exact h.sequence_lt hg (start_of_not_returns honward) hleads hm hn
  · rintro ⟨id, hop, hpreds⟩
    refine honward ⟨id, ?_, ?_⟩
    · rw [← h.agree.op]
      exact hop
    · rw [← hsame.controlPredecessors]
      exact hpreds

theorem isFixed_of_leadsTo {g : Graph} (hg : g.Consistent) {a b : NodeId} (h : g.LeadsTo a b) :
    g.isFixed a = true ∧ g.isFixed b = true := by
  obtain ⟨x, hx, -⟩ := TransGen.head'_iff.1 h
  obtain ⟨y, -, hy⟩ := TransGen.tail'_iff.1 h
  exact ⟨Graph.isFixed_of_hasControlSuccessor hx, hg.isFixed_of_controlSuccessors hy⟩

theorem controlPath_iff {g : Graph} {a b : NodeId} : ControlPath g a b ↔ a = b ∨ g.LeadsTo a b := by
  rw [ControlPath, reflTransGen_iff_eq_or_transGen, eq_comm]
  rfl

theorem not_leadsTo_start {g : Graph} (hg : g.Consistent) (honward : ¬ Returns g) {a b : NodeId} (hop : g.op b = .start) :
    ¬ g.LeadsTo a b := by
  intro hleads
  obtain ⟨x, -, hx⟩ := TransGen.tail'_iff.1 hleads
  rw [← hg.mem_controlPredecessors, start_of_not_returns honward b hop] at hx
  cases hx

namespace Timed

variable {g : Graph} (h : Timed g)
include h

theorem time_lt {a b : NodeId} (hleads : g.LeadsTo a b) : time g a < time g b := by
  obtain ⟨ha, hb⟩ := isFixed_of_leadsTo h.consistent hleads
  obtain ⟨m, hm, -⟩ := h.numbered a ha
  obtain ⟨n, hn, -⟩ := h.numbered b hb
  rw [time_eq hm, time_eq hn]
  exact h.later a b m n hleads hm hn

theorem time_le {a b : NodeId} (hpath : ControlPath g a b) : time g a ≤ time g b := by
  rcases controlPath_iff.1 hpath with rfl | hleads
  · exact Int.le_refl _
  · exact Int.le_of_lt (h.time_lt hleads)

theorem antisymm {a b : NodeId} (hab : ControlPath g a b) (hba : ControlPath g b a) : a = b := by
  refine (controlPath_iff.1 hab).resolve_right fun hleads => ?_
  have hlt := h.time_lt hleads
  have hle := h.time_le hba
  omega

end Timed

/-! ## What follows of homes -/

namespace Homes

variable {g : Graph} {aside : List NodeId} {home : NodeId → NodeId} (h : Homes g aside home)
include h

/-- A value that one place needs is at home where that place is. -/
theorem eq_of_sole (ht : Timed g) {id site : NodeId} (hid : Floats g aside id) (hused : g.useSites id ≠ [])
    (hsole : ∀ x ∈ g.useSites id, x = site) (hsite : g.isFixed (home site) = true) : home site = home id := by
  obtain ⟨x, hx⟩ := List.exists_mem_of_ne_nil _ hused
  have hmem : site ∈ g.useSites id := by
    rw [← hsole x hx]
    exact hx
  have hdown := h.serves id hid site hmem
  refine ht.antisymm (h.nearest id hid _ hsite (fun hop => ?_) fun y hy => ?_) hdown
  · -- Control does not come to a start, and the home of a floating node is none.
    rcases controlPath_iff.1 hdown with heq | hleads
    · rw [← heq] at hop
      exact (h.place id hid).2 hop
    · exact not_leadsTo_start ht.consistent ht.onward hop hleads
  · rw [hsole y hy]
    exact .refl

end Homes

/-! ## The invariant -/

theorem PlacedAt.isPlaced {g : Graph} {id last : NodeId} (h : PlacedAt g id last) : isPlaced g id = true := by
  obtain ⟨passed, hchain⟩ := h
  cases hchain with
  | fixed hfixed => simp [Schedule.isPlaced, hfixed]
  | anchored _ hanchor _ => simp [Schedule.isPlaced, hanchor]

theorem PlacedAt.has {g : Graph} {id last : NodeId} (h : PlacedAt g id last) : g.has id = true := by
  obtain ⟨passed, hchain⟩ := h
  cases hchain with
  | fixed hfixed => exact Graph.has_of_isFixed hfixed
  | anchored hfloating hanchor htail =>
      exact (AnchorChain.anchored hfloating hanchor htail).has_of_mem List.mem_cons_self

/-- What holds while floating nodes are being anchored: the others are placed at home,
    and turned up one after the other, each behind its uses and its anchor. -/
structure Homing (g : Graph) (home : NodeId → NodeId) (s : Graph) (waiting : List NodeId) : Prop
    extends Anchored g s waiting where
  atHome : ∀ id, g.has id = true → g.isFixed id = false → id ∉ waiting → PlacedAt s id (home id)
  turns : ∃ (turn : NodeId → Nat) (bound : Nat), ∀ x, Floats g waiting x → turn x < bound ∧
    ∀ y, Floats g waiting y → (y ∈ g.consumers x ∨ AnchorStep s x y) → turn y < turn x

namespace Homing

variable {g s : Graph} {home : NodeId → NodeId} {waiting : List NodeId} (h : Homing g home s waiting)
include h

/-- What is placed is placed at home. -/
theorem eq_home (hh : Homes g [] home) {id last : NodeId} (hlast : PlacedAt s id last) : last = home id := by
  cases hfixed : g.isFixed id with
  | true =>
      rw [hh.fixed id hfixed]
      exact hlast.unique ⟨[], .fixed (by rw [h.sameProgram.isFixed, hfixed])⟩
  | false =>
      refine hlast.unique (h.atHome id ?_ hfixed fun hid => h.not_placedAt hid last hlast)
      rw [← h.agree.has]
      exact hlast.has

theorem placedAt_home (hh : Homes g [] home) {id : NodeId} (hplaced : isPlaced s id = true) :
    PlacedAt s id (home id) := by
  obtain ⟨last, hlast⟩ := h.placedAt hplaced
  rw [← h.eq_home hh hlast]
  exact hlast

/-- A node that waits is in use. -/
theorem floats_of_mem {id : NodeId} (hid : id ∈ waiting) (hlive : s.has id = true) : Floats g [] id :=
  ⟨by rw [← h.agree.has]; exact hlive, h.floating id hid, List.not_mem_nil⟩

/-- The home of a value passes the test for candidates. -/
theorem home_candidate (ht : Timed g) (hh : Homes g [] home) {id : NodeId} (hid : id ∈ waiting)
    (hfloats : Floats g [] id) :
    (∀ input ∈ s.valueInputs id, isPlaced s input = true → AnchorPath s input (home id)) ∧
      ∀ site ∈ s.useSites id, isPlaced s site = true → AnchorPath s (home id) site := by
  have hself : ∀ {x : NodeId}, g.isFixed x = true → PlacedAt s x x := fun hx =>
    ⟨[], .fixed (by rw [h.sameProgram.isFixed, hx])⟩
  obtain ⟨hfixed, -⟩ := hh.place id hfloats
  refine ⟨fun input hinput hplacedInput => ?_, fun site hsite hplaced => ?_⟩
  · have hinputFixed := h.isFixed_of_input (h.consistent ht.consistent) hid hinput hplacedInput
    rw [h.sameProgram.isFixed] at hinputFixed
    rw [h.sameProgram.valueInputs, ht.consistent.mem_valueInputs] at hinput
    have hleads := hh.operands input id hinputFixed hinput List.not_mem_nil
    refine ⟨_, _, hself hinputFixed, hself hfixed, ?_⟩
    rw [ControlPath.agree h.sameProgram]
    exact hleads.to_reflTransGen
  · refine ⟨_, _, hself hfixed, h.placedAt_home hh hplaced, ?_⟩
    rw [ControlPath.agree h.sameProgram]
    rw [h.sameProgram.useSites] at hsite
    exact hh.serves id hfloats site hsite

/-- The anchor that is chosen is at the home of the node. -/
theorem placedAt_anchor (ht : Timed g) (hh : Homes g [] home) {id anchor : NodeId} (hid : id ∈ waiting)
    (hfloats : Floats g [] id) (hfor : anchorFor s id = .ok (some anchor)) (hanchor : s.has anchor = true) :
    PlacedAt s anchor (home id) := by
  have hsame := h.sameProgram
  have hsequence : ∀ {x : NodeId} {n : Int64}, sequence s x = .ok n → time g x = n.toInt := by
    intro x n hn
    rw [sequence_eq_ok, h.props, ← sequence_eq_ok] at hn
    exact time_eq hn
  have hfixedOf : ∀ {x last : NodeId}, PlacedAt s x last → g.isFixed last = true := by
    intro x last hlast
    rw [← hsame.isFixed]
    exact hlast.isFixed
  obtain ⟨hplaced, hused, hall | hshared⟩ := anchorFor_eq_some hfor hanchor
  · obtain ⟨site, hsite⟩ := List.exists_mem_of_ne_nil _ hused
    have hhere := h.placedAt_home hh (hplaced site hsite)
    rw [hall site hsite] at hhere
    rw [hsame.useSites] at hused hall
    rw [← hh.eq_of_sole ht hfloats hused hall (hfixedOf hhere)]
    exact hhere
  · obtain ⟨hhomeFixed, hhomeStart⟩ := hh.place id hfloats
    obtain ⟨hinputs, hsites⟩ := h.home_candidate ht hh hid hfloats
    have hhome : s.isFixed (home id) = true := by
      rw [hsame.isFixed]
      exact hhomeFixed
    have hne : home id ≠ id := by
      intro heq
      rw [heq, hfloats.floating] at hhomeFixed
      cases hhomeFixed
    -- The home is a candidate, so no later than the place that is chosen.
    obtain ⟨last, top, hlast, htop, hbest⟩ := hshared.latest
    obtain ⟨lastHome, n, hlastHome, hn, hle⟩ := hbest (home id) (Graph.mem_ids.2 (Graph.has_of_isFixed hhome)) hne
      (by rw [hsame.op]; exact hhomeStart) (by simp [isPlaced, hhome]) hinputs
      fun site hsite => hsites site hsite (hplaced site hsite)
    obtain rfl := hlastHome.unique ⟨[], .fixed hhome⟩
    -- That place serves all uses, so control leads from it to the home.
    have hpath : ControlPath g last (home id) := by
      refine hh.nearest id hfloats last (hfixedOf hlast) (fun hop => ?_) fun site hsite => ?_
      · cases hfixed : g.isFixed anchor with
        | true =>
            obtain rfl := hlast.unique ⟨[], .fixed (by rw [hsame.isFixed, hfixed])⟩
            refine hshared.notStart ?_
            rw [hsame.op]
            exact hop
        | false =>
            rw [h.eq_home hh hlast] at hop
            refine (hh.place anchor ⟨?_, hfixed, List.not_mem_nil⟩).2 hop
            rw [← h.agree.has]
            exact hanchor
      · rw [← hsame.useSites] at hsite
        obtain ⟨lastA, lastB, hA, hB, hreach⟩ := hshared.uses site hsite
        rw [hA.unique hlast, h.eq_home hh hB, ControlPath.agree hsame] at hreach
        exact hreach
    rcases controlPath_iff.1 hpath with rfl | hleads
    · exact hlast
    · have hlt := ht.time_lt hleads
      rw [hsequence htop, hsequence hn] at hlt
      omega

/-- A node that waits is no anchor of another, nor does one that is placed need it. -/
theorem not_follows (hg : g.Consistent) {id x : NodeId} (hid : id ∈ waiting) (hx : Floats g waiting x) :
    ¬ (id ∈ g.consumers x ∨ AnchorStep s x id) := by
  have hlive : s.has x = true := by
    rw [h.agree.has]
    exact hx.live
  have hfloating : s.isFixed x = false := by
    rw [h.sameProgram.isFixed]
    exact hx.floating
  obtain ⟨-, last, ⟨passed, hchain⟩, hsites⟩ := h.settled_of_has hlive hfloating hx.counted
  rintro (hreads | ⟨e', he', rfl⟩)
  · have hsite : id ∈ s.useSites x := by
      refine (h.consistent hg).mem_useSites_of_input ?_ ?_
      · rw [h.sameProgram.isFixed]
        exact h.floating id hid
      · rw [h.sameProgram.valueInputs]
        exact hg.mem_valueInputs.2 hreads
    obtain ⟨lastSite, hlastSite, -⟩ := hsites id hsite
    exact h.not_placedAt hid lastSite hlastSite
  · cases hchain with
    | fixed hfixed =>
        rw [hfloating] at hfixed
        cases hfixed
    | @anchored _ e _ _ _ hone htail =>
        rw [hone, List.mem_singleton] at he'
        subst he'
        exact h.not_placedAt hid last ⟨_, htail⟩

end Homing

theorem Floats.of_mem {g : Graph} {front back : List NodeId} {id x : NodeId} (h : Floats g (front ++ back) x)
    (hne : x ≠ id) : Floats g (front ++ id :: back) x := by
  refine ⟨h.live, h.floating, fun hmem => h.counted ?_⟩
  simp only [List.mem_append, List.mem_cons] at hmem ⊢
  exact hmem.imp_right fun hmem => hmem.resolve_left hne

/-- The next node takes the next turn: its uses and its anchor had theirs. -/
theorem Homing.turns_place {g s : Graph} {home : NodeId → NodeId} {front back : List NodeId} {id anchor : NodeId}
    (h : Homing g home s (front ++ id :: back)) (hg : g.Consistent) (hfor : anchorFor s id = .ok (some anchor))
    (hid : s.has id = true) (hanchor : s.has anchor = true) :
    ∃ (turn : NodeId → Nat) (bound : Nat), ∀ x, Floats g (front ++ back) x → turn x < bound ∧
      ∀ y, Floats g (front ++ back) y →
        (y ∈ g.consumers x ∨ AnchorStep (s.linkEdge (anchorEdge id anchor)) x y) → turn y < turn x := by
  have hwait : id ∈ front ++ id :: back := by simp
  obtain ⟨turn, bound, hturns⟩ := h.turns
  -- What the node needs or is anchored to is placed, and it is not placed itself.
  have hself : ∀ {y : NodeId}, y ∈ g.consumers id ∨ y = anchor → g.isFixed y = false → y ≠ id := by
    rintro y hy hfloating rfl
    obtain ⟨huses, -⟩ := anchorFor_wins hfor hanchor
    obtain ⟨-, lastAnchor, hlastAnchor, -⟩ := h.of_anchorFor hfor hanchor
    rcases hy with hreads | rfl
    · have hsite : y ∈ s.useSites y := (h.consistent hg).mem_useSites_of_input
        (by rw [h.sameProgram.isFixed]; exact hfloating)
        (by rw [h.sameProgram.valueInputs]; exact hg.mem_valueInputs.2 hreads)
      obtain ⟨last, hlast⟩ := h.placedAt (huses y hsite)
      exact h.not_placedAt hwait last hlast
    · exact h.not_placedAt hwait _ hlastAnchor
  refine ⟨Function.update turn id bound, bound + 1, fun x hx => ?_⟩
  by_cases hxid : x = id
  · subst hxid
    rw [Function.update_self]
    refine ⟨Nat.lt_succ_self _, fun y hy hfollows => ?_⟩
    have hnext : y ∈ g.consumers x ∨ y = anchor := by
      refine hfollows.imp_right fun ⟨e, he, htarget⟩ => ?_
      rw [outputsNamed_link_anchor hid, if_pos rfl, h.unplaced x hwait, List.nil_append, List.mem_singleton] at he
      rw [← htarget, he]
    have hne := hself hnext hy.floating
    rw [Function.update_of_ne hne]
    exact (hturns y (hy.of_mem hne)).1
  · rw [Function.update_of_ne hxid]
    obtain ⟨hlt, hbefore⟩ := hturns x (hx.of_mem hxid)
    refine ⟨Nat.lt_succ_of_lt hlt, fun y hy hfollows => ?_⟩
    rw [AnchorStep, outputsNamed_link_anchor hid, if_neg hxid] at hfollows
    have hne : y ≠ id := by
      rintro rfl
      exact h.not_follows hg hwait (hx.of_mem hxid) hfollows
    rw [Function.update_of_ne hne]
    exact hbefore y (hy.of_mem hne) hfollows

/-- A placement keeps the invariant. -/
theorem Homing.place {g s : Graph} {home : NodeId → NodeId} {front back : List NodeId} {id anchor : NodeId}
    (h : Homing g home s (front ++ id :: back)) (ht : Timed g) (hh : Homes g [] home)
    (hfor : anchorFor s id = .ok (some anchor)) (hid : s.has id = true) (hanchor : s.has anchor = true) :
    Homing g home (s.linkEdge (anchorEdge id anchor)) (front ++ back) := by
  have hwait : id ∈ front ++ id :: back := by simp
  have hfloats := h.floats_of_mem hwait hid
  have hfree := h.unplaced id hwait
  refine ⟨h.toAnchored.place hfor hid hanchor, fun x hlive hfloating hx => ?_, h.turns_place ht.consistent hfor hid hanchor⟩
  by_cases hxid : x = id
  · subst hxid
    refine (h.placedAt_anchor ht hh hwait hfloats hfor hanchor).link_anchor_self ?_ hid hanchor hfree
    rw [h.sameProgram.isFixed]
    exact hfloating
  · exact (h.atHome x hlive hfloating (Floats.of_mem ⟨hlive, hfloating, hx⟩ hxid).counted).link_anchor hid hanchor hfree

/-! ## Every node has its turn -/

/-- A use that floats reads the value. -/
theorem mem_consumers_of_useSite {g : Graph} (hg : g.Consistent) {id site : NodeId} (hsite : site ∈ g.useSites id)
    (hfloating : g.isFixed site = false) : site ∈ g.consumers id := by
  obtain ⟨e, he, rfl⟩ := List.mem_map.1 hsite
  have hphi : g.op e.target ≠ .phi := by
    intro hop
    rw [hg.isFixed_useSite hop] at hfloating
    cases hfloating
  rw [Graph.useSite_eq_target hphi]
  exact List.mem_map_of_mem he

namespace Homing

variable {g s : Graph} {home : NodeId → NodeId} {waiting : List NodeId} (h : Homing g home s waiting)
include h

/-- Of the nodes that wait, one that no other of them reads is ready. -/
theorem not_stalled (hg : g.Consistent) (hh : Homes g [] home) (hlive : ∀ id ∈ waiting, s.has id = true) :
    ¬ Stalled s waiting := by
  rintro ⟨hsome, hwaits⟩
  obtain ⟨depth, hdepth⟩ := hh.founded
  obtain ⟨first, hfirst⟩ := List.exists_mem_of_ne_nil _ hsome
  obtain ⟨id, hid, hleast⟩ : ∃ id ∈ waiting, ∀ x ∈ waiting, depth id ≤ depth x := by
    obtain ⟨id, hid, hmin⟩ := WellFounded.has_min (InvImage.wf depth Nat.lt_wfRel.wf) {x | x ∈ waiting} ⟨first, hfirst⟩
    exact ⟨id, hid, fun x hx => Nat.le_of_not_lt (hmin x hx)⟩
  have hfloats := h.floats_of_mem hid (hlive id hid)
  have hready : isReady s id = true := by
    refine List.all_eq_true.2 fun site hsite => ?_
    have hs := h.consistent hg
    have hsiteLive := hs.has_of_mem_useSites hsite
    rw [h.sameProgram.useSites] at hsite
    cases hfixed : g.isFixed site with
    | true => exact PlacedAt.isPlaced ⟨[], .fixed (by rw [h.sameProgram.isFixed, hfixed])⟩
    | false =>
        have hsiteFloats : Floats g [] site := ⟨by rw [← h.agree.has]; exact hsiteLive, hfixed, List.not_mem_nil⟩
        have hlt := hdepth id site hfloats hsiteFloats (mem_consumers_of_useSite hg hsite hfixed)
        refine (h.atHome site hsiteFloats.live hfixed fun hmem => ?_).isPlaced
        exact absurd (hleast site hmem) (Nat.not_le_of_lt hlt)
  rw [hwaits id hid] at hready
  cases hready

/-- No node that waits and is read lacks a place. -/
theorem not_placeless (ht : Timed g) (hh : Homes g [] home) {id : NodeId} (hid : id ∈ waiting)
    (hlive : s.has id = true) (hread : g.consumers id ≠ []) : ¬ Placeless s id := by
  have hfloats := h.floats_of_mem hid hlive
  rintro (hunused | hnone)
  · rw [h.sameProgram.useSites, useSites_eq_nil_iff] at hunused
    exact hread hunused
  · rcases candidates_eq_ok hnone with ⟨site, -, hfound⟩ | ⟨-, -, hiff⟩
    · cases hfound
    · obtain ⟨hfixed, hstart⟩ := hh.place id hfloats
      obtain ⟨hinputs, hsites⟩ := h.home_candidate ht hh hid hfloats
      have hhome : s.isFixed (home id) = true := by
        rw [h.sameProgram.isFixed]
        exact hfixed
      have hne : home id ≠ id := by
        intro heq
        rw [heq, hfloats.floating] at hfixed
        cases hfixed
      have hmem := (hiff (home id)).2 ⟨Graph.mem_ids.2 (Graph.has_of_isFixed hhome), hne,
        by rw [h.sameProgram.op]; exact hstart, by simp [isPlaced, hhome], hinputs, hsites⟩
      cases hmem

end Homing

/-- Where every floating node is read and has a home, anchoring succeeds and places all
    of them at home. -/
theorem anchorFloating_of_homes {g : Graph} {home : NodeId → NodeId} (ht : Timed g) (hh : Homes g [] home)
    (hread : g.NoneDangles) (hfree : ∀ id, g.outputsNamed id .globalSchedule = []) :
    ∃ a, anchorFloating g = .done a () ∧ Homing g home a.graph [] := by
  have hinitial : Homing g home g (g.ids.filter g.isFloating) := by
    have hnone : ∀ id, g.has id = true → g.isFixed id = false → id ∈ g.ids.filter g.isFloating := fun id hlive hfloating =>
      List.mem_filter.2 ⟨Graph.mem_ids.2 hlive, by simp [Graph.isFloating, hfloating]⟩
    exact ⟨anchored_initial hfree, fun id hlive hfloating hid => absurd (hnone id hlive hfloating) hid,
      fun _ => 0, 0, fun x hx => absurd (hnone x hx.live hx.floating) hx.counted⟩
  have hends := anchorFloating_ends (P := fun s waiting => Homing g home s waiting ∧ ∀ id ∈ waiting, s.has id = true)
    (fun hs hfor hid hanchor => ⟨hs.1.place ht hh hfor hid hanchor, fun x hx => by
      rw [Graph.has_linkEdge]
      exact hs.2 x (mem_of_mem_without hx)⟩)
    ⟨hinitial, fun id hid => Graph.mem_ids.1 (List.mem_of_mem_filter hid)⟩
  cases hrun : anchorFloating g with
  | mk a result =>
      cases result with
      | ok _ => exact ⟨a, rfl, (hends.of_eq_ok hrun).1⟩
      | error cause =>
          obtain ⟨waiting, ⟨hs, hlive⟩, ⟨id, hid, hrefuses⟩ | ⟨hstalled, -⟩⟩ := hends.of_eq_error hrun
          · have hfounded := hs.toAnchored.founded ht.consistent ht.numbered
            obtain ⟨hplaceless, -⟩ := hfounded.stuck_of_refuses rfl (hlive id hid) hrefuses
            have hfloats := hs.floats_of_mem hid (hlive id hid)
            refine absurd hplaceless (hs.not_placeless ht hh hid (hlive id hid) (hread id hfloats.live ?_))
            simp [Graph.isFloating, hfloats.floating]
          · exact absurd hstalled (hs.not_stalled ht.consistent hh hlive)

end SeaOfNodes.Schedule
