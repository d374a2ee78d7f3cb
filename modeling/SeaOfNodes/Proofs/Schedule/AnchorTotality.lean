/-
  SeaOfNodes.Proofs.Schedule.AnchorTotality

  Anchoring is total, unique and well-founded: when it succeeds every floating node has
  one anchor, anchors end at fixed nodes and never lead back, and it does not succeed
  with a floating node that nobody uses.
-/
import SeaOfNodes.Proofs.Schedule.Anchoring
import Mathlib

namespace SeaOfNodes.Schedule

open Relation

/-! ## Nodes nobody uses -/

/-- A sweep over a node without a use fails, there or before. -/
theorem anchorSweep_ne_ok_of_unused {a : Anchoring} {todo : List NodeId} {id : NodeId} (hid : id ∈ todo)
    (hunused : a.graph.useSites id = []) (left : List NodeId) : (anchorSweep a todo).result ≠ .ok left := by
  induction todo generalizing a left with
  | nil => simp at hid
  | cons x rest ih =>
      rw [anchorSweep]
      cases hfor : anchorFor a.graph x with
      | error cause => simp [Outcome.failed]
      | ok anchor? =>
          -- The sweep got past `x`, which it does not get past a node without a use.
          have hx : x ≠ id := by
            rintro rfl
            simp [anchorFor, isReady, hunused, candidates, distinct, List.eraseReps, List.eraseRepsBy,
              bind, Except.bind] at hfor
          have hrest : id ∈ rest := (List.mem_cons.1 hid).resolve_left (Ne.symm hx)
          cases anchor? with
          | none =>
              intro hok
              simp only [Outcome.map] at hok
              cases hresult : (anchorSweep a rest).result with
              | error cause => simp [hresult, Except.map] at hok
              | ok others => exact ih hrest hunused others hresult
          | some anchor =>
              cases hplace : a.place x anchor with
              | error cause => simp [Outcome.failed, hplace]
              | ok next =>
                  obtain ⟨hsource, hanchor, hgraph⟩ := Anchoring.place_eq_ok hplace
                  simp only [hplace]
                  refine ih hrest ?_ left
                  rw [hgraph, (sameProgram_link_anchor hsource hanchor).useSites, hunused]

theorem useSites_eq_nil_iff {g : Graph} {id : NodeId} : g.useSites id = [] ↔ g.consumers id = [] := by
  simp [Graph.consumers, Graph.useSites]

/-- A floating node that nobody consumes makes anchoring fail. -/
theorem anchorFloating_ne_done_of_unused {g : Graph} {id : NodeId} (hid : id ∈ g.ids)
    (hfloating : g.isFloating id = true) (hunused : g.consumers id = []) (a : Anchoring) :
    anchorFloating g ≠ .done a () := by
  have hmem : id ∈ g.ids.filter g.isFloating := List.mem_filter.2 ⟨hid, hfloating⟩
  intro hdone
  rw [anchorFloating] at hdone
  cases hwaiting : g.ids.filter g.isFloating with
  | nil => rw [hwaiting] at hmem; cases hmem
  | cons first rest =>
      rw [hwaiting] at hmem
      rw [hwaiting, List.length_cons] at hdone
      simp only [anchorLoop, Outcome.andThen] at hdone
      cases hresult : (anchorSweep ⟨g, []⟩ (first :: rest)).result with
      | error cause => simp [hresult, Outcome.done] at hdone
      | ok left =>
          have hnone : g.useSites id = [] := useSites_eq_nil_iff.2 hunused
          exact anchorSweep_ne_ok_of_unused (a := ⟨g, []⟩) hmem hnone left hresult

/-! ## The result -/

/-- One node is anchored to another. -/
def AnchorStep (g : Graph) (a b : NodeId) : Prop :=
  ∃ e ∈ g.outputsNamed a .globalSchedule, e.target = b

/-- Along anchors the chains get shorter. -/
theorem AnchorChain.length_lt {g : Graph} (hfixed : ∀ id, g.isFixed id = true →
    g.outputsNamed id .globalSchedule = []) {a b : NodeId} (h : TransGen (AnchorStep g) a b)
    {passed : List NodeId} {last : NodeId} (hchain : AnchorChain g a passed last) :
    ∃ shorter, AnchorChain g b shorter last ∧ shorter.length < passed.length := by
  have hstep : ∀ {a b : NodeId} {passed : List NodeId}, AnchorStep g a b →
      AnchorChain g a passed last →
      ∃ shorter, AnchorChain g b shorter last ∧ shorter.length < passed.length := by
    rintro a b passed ⟨e, he, rfl⟩ hchain
    cases hchain with
    | fixed h =>
        rw [hfixed _ h] at he
        cases he
    | anchored _ hanchor htail =>
        rw [hanchor, List.mem_singleton] at he
        subst he
        exact ⟨_, htail, Nat.lt_succ_self _⟩
  induction h with
  | single h => exact hstep h hchain
  | tail _ h ih =>
      obtain ⟨shorter, hshort, hlt⟩ := ih
      obtain ⟨shorter', hshort', hlt'⟩ := hstep h hshort
      exact ⟨shorter', hshort', Nat.lt_trans hlt' hlt⟩

/-- Anchors never lead back. -/
theorem Anchored.acyclic {g s : Graph} (h : Anchored g s []) (id : NodeId) :
    ¬ TransGen (AnchorStep s) id id := by
  intro hcycle
  have hplaced : isPlaced s id = true := by
    obtain ⟨b, ⟨e, he, -⟩, -⟩ := TransGen.head'_iff.1 hcycle
    have : s.outputsNamed id .globalSchedule ≠ [] := List.ne_nil_of_mem he
    simp [isPlaced, this]
  obtain ⟨last, passed, hchain⟩ := h.placedAt hplaced
  obtain ⟨shorter, hshort, hlt⟩ := AnchorChain.length_lt (fun _ => h.unanchored) hcycle hchain
  -- The chain from a node on a cycle would be shorter than itself.
  obtain ⟨rfl, -⟩ := hchain.unique hshort
  omega

/-- Once nothing waits every live node has its fixed anchor. -/
theorem Anchored.fixedAnchor {g s : Graph} (h : Anchored g s []) {id : NodeId} (hid : s.has id = true) :
    ∃ last, PlacedAt s id last := by
  cases hfixed : s.isFixed id with
  | true => exact ⟨id, [], .fixed hfixed⟩
  | false =>
      obtain ⟨-, last, hlast, -⟩ := h.settled_of_has hid hfixed (by simp)
      exact ⟨last, hlast⟩

/-- Anchoring is total, unique and well-founded.  After the three steps every
    floating node has a use and exactly one anchor, no fixed node has one, what is
    fixed is as it was, anchors never lead back, every live node has a fixed
    anchor, and control leads from that of a floating node to those of its uses.
    A floating node without a consumer makes anchoring fail on any graph. -/
theorem anchorFloating_total_unique_acyclic (g : Graph) :
    (∀ id ∈ g.ids, g.isFloating id = true → g.consumers id = [] →
      ∀ a, anchorFloating g ≠ .done a ()) ∧
    ∀ ordered a, checkSchedulable g = .ok () → orderFixed g = .done ordered () →
      anchorFloating ordered = .done a () →
      (∀ id ∈ a.graph.ids, a.graph.isFloating id = true →
        a.graph.useSites id ≠ [] ∧ ∃ e, a.graph.outputsNamed id .globalSchedule = [e]) ∧
      (∀ id ∈ a.graph.ids, a.graph.isFixed id = true →
        a.graph.outputsNamed id .globalSchedule = []) ∧
      (a.graph.ids = g.ids ∧ ∀ id, a.graph.isFixed id = g.isFixed id) ∧
      (∀ id, ¬ TransGen (AnchorStep a.graph) id id) ∧
      (∀ id ∈ a.graph.ids, ∃ last, fixedAnchor a.graph id = .ok last) ∧
      (∀ id ∈ a.graph.ids, a.graph.isFloating id = true → ∀ site ∈ a.graph.useSites id,
        ∃ last lastSite, fixedAnchor a.graph id = .ok last ∧
          fixedAnchor a.graph site = .ok lastSite ∧ ControlPath a.graph last lastSite) := by
  refine ⟨fun id hid hfloating hunused => anchorFloating_ne_done_of_unused hid hfloating hunused, ?_⟩
  intro ordered a hcheck horder hanchor
  have hsame := agree_orderFixed (fun _ => true) horder
  have hinv := anchored_of_anchorFloating
    (fun id => outputsNamed_eq_nil_of_orderFixed hcheck horder id .globalSchedule rfl) hanchor
  have hprogram : Graph.SameProgram g a.graph := (hsame.mono fun _ _ => rfl).trans hinv.sameProgram
  have hsettled : ∀ id ∈ a.graph.ids, a.graph.isFloating id = true → Settled a.graph id := by
    intro id hid hfloating
    refine hinv.settled id ?_ ?_ (by simp)
    · rw [← hinv.agree.has]
      exact Graph.mem_ids.1 hid
    · rw [← hinv.sameProgram.isFixed]
      simpa [Graph.isFloating] using hfloating
  refine ⟨fun id hid hfloating => ?_, fun id _ hfixed => ?_, ⟨hprogram.ids, hprogram.isFixed⟩,
    hinv.acyclic, fun id hid => ?_, fun id hid hfloating site hsite => ?_⟩
  · obtain ⟨hused, last, ⟨passed, hchain⟩, -⟩ := hsettled id hid hfloating
    refine ⟨hused, ?_⟩
    cases hchain with
    | fixed hfixed => simp [Graph.isFloating, hfixed] at hfloating
    | anchored _ hone _ => exact ⟨_, hone⟩
  · exact hinv.free id (.inl (by rw [← hinv.sameProgram.isFixed]; exact hfixed))
  · obtain ⟨last, hlast⟩ := hinv.fixedAnchor (Graph.mem_ids.1 hid)
    exact ⟨last, fixedAnchor_eq_ok.2 hlast⟩
  · obtain ⟨-, last, hlast, hsites⟩ := hsettled id hid hfloating
    obtain ⟨lastSite, hlastSite, hpath⟩ := hsites site hsite
    exact ⟨last, lastSite, fixedAnchor_eq_ok.2 hlast, fixedAnchor_eq_ok.2 hlastSite, hpath⟩

/-- The floating nodes of the diamond are anchored, and an argument that nobody
    reads cannot be. -/
theorem anchorFloating_diamond :
    (∃ ordered a, checkSchedulable .diamond = .ok () ∧ orderFixed .diamond = .done ordered () ∧
      anchorFloating ordered = .done a () ∧
      (∀ id ∈ a.graph.ids, a.graph.isFloating id = true →
        a.graph.useSites id ≠ [] ∧ ∃ e, a.graph.outputsNamed id .globalSchedule = [e]) ∧
      ∀ id ∈ a.graph.ids, ∃ last, fixedAnchor a.graph id = .ok last) ∧
    ∀ a, anchorFloating (.assemble [.start, .arg] []) ≠ .done a () := by
  have hcheck : checkSchedulable .diamond = .ok () := by decide +kernel
  have horder : orderFixed .diamond = .done (orderFixed .diamond).state () := Outcome.eq_done (by decide +kernel)
  have hanchor : anchorFloating (orderFixed .diamond).state
      = .done (anchorFloating (orderFixed .diamond).state).state () := Outcome.eq_done (by cbv)
  obtain ⟨hone, -, -, -, hfixed, -⟩ :=
    (anchorFloating_total_unique_acyclic .diamond).2 _ _ hcheck horder hanchor
  refine ⟨⟨_, _, hcheck, horder, hanchor, hone, hfixed⟩, ?_⟩
  exact (anchorFloating_total_unique_acyclic _).1 1 (by decide) (by decide) (by decide)

end SeaOfNodes.Schedule
