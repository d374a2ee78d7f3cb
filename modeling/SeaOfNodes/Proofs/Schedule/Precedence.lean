/-
  SeaOfNodes.Proofs.Schedule.Precedence

  Fixed nodes come before the floating nodes that they feed.  In a graph that is in
  order every walk to a use of a floating value comes by the fixed nodes that feed it.
  The latest of them lies between the inputs and the uses, so it is a candidate, and
  the value goes to no place with a lower number.  Where control never returns to a
  start, numbers grow along walks, so the walks to that place came by all of them.
-/
import SeaOfNodes.Proofs.Schedule.Scheduled

namespace SeaOfNodes.Schedule

open Relation

/-- A fixed node feeds a node, directly or through floating ones. -/
def FedBy (g : Graph) (id p : NodeId) : Prop := g.isFixed p = true ∧ ∃ e, g.Feeds p e ∧ e.target = id

/-- Every walk to a node comes by another one, or ends there. -/
def Passes (g : Graph) (last p : NodeId) : Prop :=
  ∀ earlier, g.ControlWalk (last :: earlier) → p ∈ last :: earlier

/-- Control returns to a start. -/
def Returns (g : Graph) : Prop := ∃ id, g.op id = .start ∧ g.controlPredecessors id ≠ []

theorem start_of_not_returns {g : Graph} (h : ¬ Returns g) (id : NodeId) (hop : g.op id = .start) :
    g.controlPredecessors id = [] := by
  by_contra hne
  exact h ⟨id, hop, hne⟩

/-- The place of a floating node of `g`: that of its only use, if there is one, and
    behind the fixed nodes that feed it, if control never returns to a start. -/
def Guarded (g s : Graph) (id : NodeId) : Prop :=
  ∃ last, PlacedAt s id last ∧ (∀ site, (∀ x ∈ g.useSites id, x = site) → PlacedAt s site last) ∧
    (¬ Returns g → ∀ p, FedBy g id p → Passes g last p)

/-- Every floating node that does not wait is guarded. -/
def AllGuarded (g s : Graph) (waiting : List NodeId) : Prop :=
  ∀ id, g.has id = true → g.isFixed id = false → id ∉ waiting → Guarded g s id

/-! ## Places of inputs and uses -/

/-- A graph in order, and the same with its fixed nodes numbered. -/
structure Prepared (g o : Graph) : Prop where
  consistent : g.Consistent
  inOrder : g.InOrder
  oneStart : (g.find .start).length = 1
  ordered : Ordered g o []

namespace Prepared

variable {g o : Graph} (hprep : Prepared g o)
include hprep

theorem sameProgram : Graph.SameProgram g o := hprep.ordered.agree.sameProgram

theorem exists_sequence {a : NodeId} (ha : g.isFixed a = true) : ∃ n, sequence o a = .ok n :=
  hprep.ordered.numbered a (Graph.has_of_isFixed ha) ha (by simp)

theorem exists_walk {a : NodeId} (ha : g.isFixed a = true) : ∃ earlier, g.ControlWalk (a :: earlier) := by
  obtain ⟨n, hn⟩ := hprep.exists_sequence ha
  exact hprep.ordered.walk a n hn

theorem start_unique {a b : NodeId} (ha : g.op a = .start) (hb : g.op b = .start) : a = b := by
  have hmem : ∀ {x : NodeId}, g.op x = .start → x ∈ g.find .start := by
    intro x hx
    refine List.mem_filter.2 ⟨Graph.mem_ids.2 (Graph.has_of_op_ne_invalid ?_), by simpa using hx⟩
    rw [hx]
    decide
  obtain ⟨start, hstart⟩ := List.length_eq_one_iff.1 hprep.oneStart
  have hone : ∀ {x : NodeId}, g.op x = .start → x = start := fun hx => by
    have hx := hmem hx
    rw [hstart] at hx
    exact List.mem_singleton.1 hx
  rw [hone ha, hone hb]

/-- A walk to a use of a floating value comes by the fixed nodes that feed it. -/
theorem passes_site {s : Graph} {waiting : List NodeId} (h : Anchored o s waiting) (hguard : AllGuarded g s waiting)
    (hreturns : ¬ Returns g) {id site : NodeId} (hfloating : g.isFixed id = false)
    (hsite : site ∈ g.useSites id) (hplaced : isPlaced s site = true) :
    ∃ last, PlacedAt s site last ∧ ∀ p, FedBy g id p → Passes g last p := by
  obtain ⟨e', he', rfl⟩ := List.mem_map.1 hsite
  obtain ⟨he', hvalue⟩ := List.mem_filter.1 he'
  have hfeeds : ∀ {p : NodeId}, FedBy g id p → g.Feeds p e' := by
    rintro p ⟨-, e, hfeeds, rfl⟩
    exact hfeeds.through (by simp [Graph.isFloating, hfloating]) he' hvalue
  have hsame := hprep.sameProgram.trans h.sameProgram
  cases hfixed : g.isFixed (g.useSite e') with
  | true =>
      refine ⟨g.useSite e', ⟨[], .fixed (by rw [hsame.isFixed, hfixed])⟩, fun p hp earlier hwalk => ?_⟩
      rcases hprep.inOrder.fixedBefore p e' hp.1 (hfeeds hp) earlier hwalk with hmem | ⟨-, rfl⟩
      · exact List.mem_cons_of_mem _ hmem
      · exact List.mem_cons_self
  | false =>
      -- A use that floats is placed already, and guarded by all that feeds it.
      have htarget : g.useSite e' = e'.target := by
        refine Graph.useSite_eq_target fun hphi => ?_
        rw [hprep.consistent.isFixed_useSite hphi] at hfixed
        cases hfixed
      have hwait : g.useSite e' ∉ waiting := by
        intro hmem
        have hnot : s.isFixed (g.useSite e') = false := by rw [hsame.isFixed, hfixed]
        simp [isPlaced, hnot, h.free _ (.inr hmem)] at hplaced
      have hhas : g.has (g.useSite e') = true := by
        rw [htarget]
        exact hprep.consistent.has_target he'
      obtain ⟨last, hlast, -, hpasses⟩ := hguard _ hhas hfixed hwait
      exact ⟨last, hlast, fun p hp => hpasses hreturns p ⟨hp.1, e', hfeeds hp, htarget.symm⟩⟩

/-- Numbers do not fall along control. -/
theorem sequence_le (hreturns : ¬ Returns g) {a b : NodeId} (hpath : ControlPath g a b) {m n : Int64}
    (hm : sequence o a = .ok m) (hn : sequence o b = .ok n) : m.toInt ≤ n.toInt := by
  rcases reflTransGen_iff_eq_or_transGen.1 hpath with rfl | hpath
  · rw [hm, Except.ok.injEq] at hn
    exact Int.le_of_eq (congrArg Int64.toInt hn)
  · exact Int.le_of_lt (hprep.ordered.sequence_lt hprep.consistent (start_of_not_returns hreturns) hpath hm hn)

/-- The latest fixed node that feeds a value on a walk to one of its uses is a
    candidate for its place, unless it is a start. -/
theorem candidate_of_latest {s : Graph} {waiting : List NodeId} (h : Anchored o s waiting)
    {id q : NodeId} (hid : id ∈ waiting)
    (hpass : ∀ site ∈ g.useSites id, ∃ last, PlacedAt s site last ∧ ∀ p, FedBy g id p → Passes g last p)
    (hfed : FedBy g id q) (hlatest : ∀ p, FedBy g id p → ControlPath g p q) :
    (∀ input ∈ s.valueInputs id, isPlaced s input = true → AnchorPath s input q) ∧
      ∀ site ∈ s.useSites id, AnchorPath s q site := by
  have hsame := hprep.sameProgram.trans h.sameProgram
  have hplaced : ∀ {a : NodeId}, g.isFixed a = true → PlacedAt s a a := fun ha =>
    ⟨[], .fixed (by rw [hsame.isFixed]; exact ha)⟩
  have hs := h.consistent (hprep.consistent.congr hprep.ordered.agree.inputs_eq hprep.ordered.agree.outputs_eq)
  refine ⟨fun input hinput hplacedInput => ?_, fun site hsite => ?_⟩
  · -- Of the inputs only fixed nodes are placed before the value, and these feed it.
    have hfixed := h.isFixed_of_input hs hid hinput hplacedInput
    rw [hsame.isFixed] at hfixed
    rw [hsame.valueInputs] at hinput
    obtain ⟨e, he, rfl⟩ := List.mem_map.1 hinput
    obtain ⟨he, hvalue⟩ := List.mem_filter.1 he
    have hfeeds : FedBy g id e.source :=
      ⟨hfixed, e, .direct (hprep.consistent.mem_outputs he) hvalue, hprep.consistent.target_eq id e he⟩
    refine ⟨_, _, hplaced hfixed, hplaced hfed.1, ?_⟩
    rw [ControlPath.agree hsame]
    exact hlatest _ hfeeds
  · rw [hsame.useSites] at hsite
    obtain ⟨last, hlast, hpasses⟩ := hpass site hsite
    have hfixed : g.isFixed last = true := by
      rw [← hsame.isFixed]
      exact hlast.isFixed
    -- Some walk leads to where the use is placed, and it comes by the latest feeder.
    obtain ⟨earlier, hwalk⟩ := hprep.exists_walk hfixed
    refine ⟨_, _, hplaced hfed.1, hlast, ?_⟩
    rw [ControlPath.agree hsame]
    exact hwalk.controlPath (hpasses q hfed earlier hwalk)

/-- Nothing comes before a start but itself, and all walks begin there. -/
theorem passes_of_start (hreturns : ¬ Returns g) {last p q : NodeId} (hop : g.op q = .start)
    (hpath : ControlPath g p q) : Passes g last p := by
  have hpq : p = q := by
    rcases ReflTransGen.cases_tail hpath with hpq | ⟨c, -, hc⟩
    · exact hpq.symm
    · rw [← hprep.consistent.mem_controlPredecessors, start_of_not_returns hreturns q hop] at hc
      cases hc
  intro earlier hwalk
  obtain ⟨x, hx, hopx⟩ := hwalk.exists_start
  rw [hpq, hprep.start_unique hop hopx]
  exact hx

/-- What the walks to a later place come by is passed before the earlier one, if its number
    is not higher: behind that place the numbers are. -/
theorem passes_of_sequence_le (hreturns : ¬ Returns g) {last site p : NodeId} (hpath : ControlPath g last site)
    (hpass : Passes g site p) {m top : Int64} (hm : sequence o p = .ok m) (htop : sequence o last = .ok top)
    (hle : m.toInt ≤ top.toInt) : Passes g last p := by
  intro earlier hwalk
  obtain ⟨before, hlonger, hmem⟩ := hwalk.extend hpath
  refine (hmem p (hpass before hlonger)).resolve_right fun hafter => ?_
  have hlt := hprep.ordered.sequence_lt hprep.consistent (start_of_not_returns hreturns) hafter htop hm
  omega

/-- The walks to the place chosen for a value come by the fixed nodes that feed it. -/
theorem passes_anchor {s : Graph} {waiting : List NodeId} (h : Anchored o s waiting)
    (hguard : AllGuarded g s waiting) (hreturns : ¬ Returns g) {id anchor last p : NodeId} (hid : id ∈ waiting)
    (hfor : anchorFor s id = .ok (some anchor)) (hanchor : s.has anchor = true) (hlast : PlacedAt s anchor last)
    (hp : FedBy g id p) : Passes g last p := by
  have hsame := hprep.sameProgram.trans h.sameProgram
  have hfloating : g.isFixed id = false := by
    rw [← hprep.sameProgram.isFixed]
    exact h.floating id hid
  have hsequence : ∀ {x : NodeId} {n : Int64}, sequence s x = .ok n ↔ sequence o x = .ok n := by
    intro x n
    rw [sequence_eq_ok, sequence_eq_ok, h.props]
  obtain ⟨hplaced, hused, hchoice⟩ := anchorFor_eq_some hfor hanchor
  have hpass : ∀ site ∈ g.useSites id, ∃ last, PlacedAt s site last ∧ ∀ p, FedBy g id p → Passes g last p :=
    fun site hsite => hprep.passes_site h hguard hreturns hfloating hsite
      (hplaced site (by rw [hsame.useSites]; exact hsite))
  obtain ⟨site, hsite⟩ := List.exists_mem_of_ne_nil _ hused
  obtain ⟨lastSite, hlastSite, hpasses⟩ := hpass site (by rw [← hsame.useSites]; exact hsite)
  rcases hchoice with hall | ⟨-, -, -, hreach, lastAnchor, top, hlastAnchor, htop, hbest⟩
  · rw [hall site hsite] at hlastSite
    rw [hlast.unique hlastSite]
    exact hpasses p hp
  · have hfixed : g.isFixed lastSite = true := by
      rw [← hsame.isFixed]
      exact hlastSite.isFixed
    obtain ⟨earlierSite, hwalkSite⟩ := hprep.exists_walk hfixed
    have hon : ∀ x, FedBy g id x → x ∈ lastSite :: earlierSite := fun x hx => hpasses x hx _ hwalkSite
    obtain ⟨q, -, hfed, hlatest⟩ := hwalkSite.exists_latest ⟨p, hon p hp, hp⟩
    have hbefore : ∀ x, FedBy g id x → ControlPath g x q := fun x hx => hlatest x (hon x hx) hx
    by_cases hop : g.op q = .start
    · exact hprep.passes_of_start hreturns hop (hbefore p hp)
    · obtain ⟨hinputs, hsites⟩ := hprep.candidate_of_latest h hid hpass hfed hbefore
      have hfixedQ : s.isFixed q = true := by
        rw [hsame.isFixed]
        exact hfed.1
      have hne : q ≠ id := by
        rintro rfl
        rw [hfed.1] at hfloating
        cases hfloating
      -- No candidate has a higher number than the place, so neither has the latest that feeds.
      obtain ⟨lastQ, n, hlastQ, hn, hle⟩ := hbest q
        (Graph.mem_ids.2 (Graph.has_of_isFixed hfixedQ)) hne (by rw [hsame.op]; exact hop)
        (by simp [isPlaced, hfixedQ]) hinputs hsites
      obtain rfl := hlastQ.unique ⟨[], .fixed hfixedQ⟩
      obtain rfl := hlastAnchor.unique hlast
      rw [hsequence] at hn htop
      obtain ⟨lastA, lastB, hA, hB, hpath⟩ := hreach site hsite
      rw [hA.unique hlast, hB.unique hlastSite, ControlPath.agree hsame] at hpath
      obtain ⟨m, hm⟩ := hprep.exists_sequence hp.1
      exact hprep.passes_of_sequence_le hreturns hpath (hpasses p hp) hm htop
        (Int.le_trans (hprep.sequence_le hreturns (hbefore p hp) hm hn) hle)

/-- A placement keeps the nodes guarded. -/
theorem guarded_place {s : Graph} {front back : List NodeId} {id anchor : NodeId}
    (h : Anchored o s (front ++ id :: back)) (hguard : AllGuarded g s (front ++ id :: back))
    (hfor : anchorFor s id = .ok (some anchor)) (hid : s.has id = true) (hanchor : s.has anchor = true) :
    AllGuarded g (s.linkEdge (anchorEdge id anchor)) (front ++ back) := by
  have hwait : id ∈ front ++ id :: back := by simp
  have hfree := h.free id (.inr hwait)
  have hsame := hprep.sameProgram.trans h.sameProgram
  intro x hhas hfloating hx
  by_cases hxid : x = id
  · subst hxid
    obtain ⟨-, last, hlast, -⟩ := h.of_anchorFor hfor hanchor
    refine ⟨last, hlast.link_anchor_self (by rw [hsame.isFixed]; exact hfloating) hid hanchor hfree,
      fun site hsite => PlacedAt.link_anchor ?_ hid hanchor hfree, fun hreturns p hp =>
      hprep.passes_anchor h hguard hreturns hwait hfor hanchor hlast hp⟩
    have hone : anchor = site := anchor_eq_of_sole_use hfor hanchor (by rw [hsame.useSites]; exact hsite)
    rw [← hone]
    exact hlast
  · have hnot : x ∉ front ++ id :: back := by
      simp only [List.mem_append, List.mem_cons, not_or] at hx ⊢
      exact ⟨hx.1, hxid, hx.2⟩
    obtain ⟨last, hlast, halone, hbehind⟩ := hguard x hhas hfloating hnot
    exact ⟨last, hlast.link_anchor hid hanchor hfree,
      fun site hsite => (halone site hsite).link_anchor hid hanchor hfree, hbehind⟩

end Prepared

/-! ## Schedules of graphs in order -/

/-- The schedule of a graph that was in order. -/
structure ScheduledFrom (g s : Graph) : Prop where
  program : Graph.SameProgram g s
  inOrder : g.InOrder
  guarded : ∀ id, g.has id = true → g.isFixed id = false → Guarded g s id

theorem scheduledFrom_of_run {g : Graph} (hg : g.Consistent) (hin : g.InOrder) (hsize : g.arena.size < 2 ^ 63)
    (h : (run g).failure? = none) : ScheduledFrom g (run g).graph := by
  obtain ⟨hprogram, -⟩ := scheduled_of_run hg h
  refine ⟨hprogram, hin, fun id hid hfloating => ?_⟩
  obtain ⟨ordered, a, c, hcheck, horder, hanchor, hchain, hgraph⟩ := run_phases h
  have hprep : Prepared g ordered :=
    ⟨hg, hin, oneStart_of_checkSchedulable hcheck, ordered_of_orderFixed hg hsize hin.noSequence horder⟩
  have hfree := fun id => outputsNamed_eq_nil_of_orderFixed hcheck horder id .globalSchedule rfl
  have hnone : AllGuarded g ordered (ordered.ids.filter ordered.isFloating) := by
    intro x hhas hfloats hx
    refine absurd (List.mem_filter.2 ⟨Graph.mem_ids.2 ?_, ?_⟩) hx
    · rw [hprep.sameProgram.has]
      exact hhas
    · simp [Graph.isFloating, hprep.sameProgram.isFixed, hfloats]
  obtain ⟨-, hguard⟩ := anchorFloating_keeps (P := fun s waiting => Anchored ordered s waiting ∧ AllGuarded g s waiting)
    (fun hs hfor hid hanchor => ⟨hs.1.place hfor hid hanchor, hprep.guarded_place hs.1 hs.2 hfor hid hanchor⟩)
    ⟨anchored_initial hfree, hnone⟩ hanchor
  obtain ⟨last, hlast, halone, hbehind⟩ := hguard id hid hfloating (by simp)
  have hagree : Graph.Agree Graph.unchained a.graph (run g).graph := by
    rw [hgraph]
    exact agree_chainAll hchain
  exact ⟨last, hlast.agree hagree, fun site hsite => (halone site hsite).agree hagree, hbehind⟩

namespace ScheduledFrom

variable {g s : Graph} (h : ScheduledFrom g s)
include h

/-- A walk to a place that needs the value of a fixed node went through that node. -/
theorem fixed_before {p : NodeId} {e : Edge} (hp : s.isFixed p = true) (he : e ∈ s.outputs p)
    (hvalue : e.role.isValue = true) {earlier : List NodeId} (hwalk : s.ControlWalk (s.useSite e :: earlier)) :
    p ∈ earlier ∨ (s.op e.target = .phi ∧ p = s.useSite e) := by
  rw [h.program.isFixed] at hp
  rw [h.program.mem_outputs_iff (Graph.unscheduled_of_isValue hvalue)] at he
  rw [Graph.ControlWalk.agree h.program] at hwalk
  rw [h.program.useSite] at hwalk ⊢
  rw [h.program.op]
  exact h.inOrder.fixedBefore p e hp (.direct he hvalue) earlier hwalk

/-- So did a walk to the place of a floating node that reads it. -/
theorem floating_behind (hs : s.Consistent) (hreturns : ¬ Returns s) {id : NodeId}
    (hfloating : s.isFixed id = false) {e : Edge} (he : e ∈ s.inputs id) (hvalue : e.role.isValue = true)
    (hsource : s.isFixed e.source = true) :
    ∃ last, PlacedAt s id last ∧ ∀ earlier, s.ControlWalk (last :: earlier) → e.source ∈ last :: earlier := by
  have hhas : g.has id = true := by
    rw [← h.program.has]
    exact Graph.has_of_mem_inputs he
  have hno : ¬ Returns g := by
    rintro ⟨start, hop, hpreds⟩
    exact hreturns ⟨start, by rw [h.program.op]; exact hop, by rw [h.program.controlPredecessors]; exact hpreds⟩
  obtain ⟨last, hlast, -, hbehind⟩ := h.guarded id hhas (by rw [← h.program.isFixed]; exact hfloating)
  refine ⟨last, hlast, fun earlier hwalk => ?_⟩
  have hout := hs.mem_outputs he
  rw [h.program.mem_outputs_iff (Graph.unscheduled_of_isValue hvalue)] at hout
  rw [Graph.ControlWalk.agree h.program] at hwalk
  rw [h.program.isFixed] at hsource
  exact hbehind hno e.source ⟨hsource, e, .direct hout hvalue, hs.target_eq id e he⟩ earlier hwalk

/-- A floating value with one use is where that is. -/
theorem placedAt_only_use {id site : NodeId} (hhas : s.has id = true) (hfloating : s.isFixed id = false)
    (hall : ∀ x ∈ s.useSites id, x = site) : ∃ last, PlacedAt s id last ∧ PlacedAt s site last := by
  rw [h.program.has] at hhas
  rw [h.program.isFixed] at hfloating
  rw [h.program.useSites] at hall
  obtain ⟨last, hlast, halone, -⟩ := h.guarded id hhas hfloating
  exact ⟨last, hlast, halone site hall⟩

end ScheduledFrom

end SeaOfNodes.Schedule
