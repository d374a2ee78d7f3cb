/-
  SeaOfNodes.Proofs.Schedule.Causes

  What scheduling may find wrong with a graph that no schedule was written into.  Each phase
  can fail for causes of its own: numbering for want of a way to a node, anchoring for want
  of a place, chaining for want of an order.  All other errors guard what the phase before
  has brought about, and are never reported.
-/
import SeaOfNodes.Proofs.Pass.Unannotated
import SeaOfNodes.Proofs.Schedule.Scheduled

namespace SeaOfNodes.Schedule

open SeaOfNodes.Graph

/-- The causes for which a phase may fail. -/
def Failure.Expected : Failure → Prop
  | ⟨some .order, .missingSequence _⟩ => True
  | ⟨some .order, .cyclicControl _ _⟩ => True
  | ⟨some .anchors, .stuck _⟩ => True
  | ⟨some .chains, .blockOrder _⟩ => True
  | _ => False

/-! ## Numbering -/

theorem nextSequence_error {g : Graph} {id : NodeId} {cause : Error} (h : nextSequence g id = .error cause) :
    ∃ problem, cause = .missingSequence problem := by
  unfold nextSequence at h
  split at h
  · cases h
  · split at h
    · cases h
      exact ⟨_, rfl⟩
    · cases h

theorem orderFixed_causes {g s : Graph} {cause : Error} (h : orderFixed g = ⟨s, .error cause⟩) :
    Failure.Expected ⟨some .order, cause⟩ := by
  have hends := orderFixed_ends (P := fun _ _ => True) (fun _ _ => trivial) (g := g) trivial
  obtain ⟨waiting, -, ⟨id, -, hrefused⟩ | ⟨n, label, rfl⟩⟩ := hends.of_eq_error h
  · obtain ⟨problem, rfl⟩ := nextSequence_error hrefused
    trivial
  · trivial

/-! ## Anchoring -/

theorem exists_allHold {test : NodeId → Except Error Bool} {ids : List NodeId}
    (h : ∀ id ∈ ids, ∃ holds, test id = .ok holds) : ∃ holds, allHold test ids = .ok holds := by
  induction ids with
  | nil => exact ⟨true, rfl⟩
  | cons id rest ih =>
      obtain ⟨holds, hid⟩ := h id List.mem_cons_self
      rw [allHold, hid]
      cases holds with
      | false => exact ⟨false, rfl⟩
      | true => exact ih fun other hother => h other (List.mem_cons_of_mem id hother)

theorem exists_filterHold {test : NodeId → Except Error Bool} {ids : List NodeId}
    (h : ∀ id ∈ ids, ∃ holds, test id = .ok holds) : ∃ kept, filterHold test ids = .ok kept := by
  induction ids with
  | nil => exact ⟨[], rfl⟩
  | cons id rest ih =>
      obtain ⟨holds, hid⟩ := h id List.mem_cons_self
      obtain ⟨kept, hkept⟩ := ih fun other hother => h other (List.mem_cons_of_mem id hother)
      rw [filterHold, hid]
      exact ⟨_, bind_eq_ok.2 ⟨holds, rfl, bind_eq_ok.2 ⟨kept, hkept, rfl⟩⟩⟩

/-- What anchoring relies on: every node that counts as placed has its place, and the places
    are numbered from zero. -/
structure Founded (s : Graph) : Prop where
  consistent : s.Consistent
  placed : ∀ id, isPlaced s id = true → ∃ last, PlacedAt s id last
  numbered : ∀ id, s.isFixed id = true → ∃ n, sequence s id = .ok n ∧ 0 ≤ n.toInt

/-- Nobody needs a value, or no node lies between its inputs and its uses. -/
def Placeless (g : Graph) (id : NodeId) : Prop := g.useSites id = [] ∨ candidates g id = .ok []

namespace Founded

variable {s : Graph} (h : Founded s)
include h

theorem exists_anchorReaches {a b : NodeId} (ha : isPlaced s a = true) (hb : isPlaced s b = true) :
    ∃ reaches, anchorReaches s a b = .ok reaches := by
  obtain ⟨source, hsource⟩ := h.placed a ha
  obtain ⟨target, htarget⟩ := h.placed b hb
  refine ⟨controlReaches s source target, bind_eq_ok.2 ⟨source, fixedAnchor_eq_ok.2 hsource, ?_⟩⟩
  exact bind_eq_ok.2 ⟨target, fixedAnchor_eq_ok.2 htarget, rfl⟩

/-- Only placed nodes are compared. -/
theorem exists_isCandidate {c : NodeId} (hc : isPlaced s c = true) (inputs consumers : List NodeId) :
    ∃ holds, isCandidate s c inputs consumers = .ok holds := by
  obtain ⟨reached, hreached⟩ : ∃ reached,
      allHold (fun input => anchorReaches s input c) (inputs.filter (isPlaced s)) = .ok reached :=
    exists_allHold fun input hinput => h.exists_anchorReaches (List.mem_filter.1 hinput).2 hc
  obtain ⟨reaches, hreaches⟩ : ∃ reaches,
      allHold (fun consumer => anchorReaches s c consumer) (consumers.filter (isPlaced s)) = .ok reaches :=
    exists_allHold fun consumer hconsumer => h.exists_anchorReaches hc (List.mem_filter.1 hconsumer).2
  rw [isCandidate, hreached]
  cases reached with
  | false => exact ⟨false, rfl⟩
  | true => exact ⟨reaches, hreaches⟩

/-- Candidates are looked for in vain only where nobody needs the value. -/
theorem candidates_cases {id : NodeId} (hready : isReady s id = true) :
    (s.useSites id = [] ∧ candidates s id = .error (.stuck (.noConsumers (s.label id)))) ∨
      ∃ found, candidates s id = .ok found ∧ ∀ c ∈ found, isPlaced s c = true ∧ s.has c = true := by
  have hsites : ∀ site ∈ s.useSites id, isPlaced s site = true := by
    simpa [isReady] using hready
  unfold candidates
  split
  · rename_i hnone
    refine .inl ⟨List.eq_nil_iff_forall_not_mem.2 fun site hsite => ?_, rfl⟩
    rw [← mem_distinct, hnone] at hsite
    cases hsite
  · rename_i site hone
    refine .inr ⟨[site], rfl, fun c hc => ?_⟩
    obtain rfl := List.mem_singleton.1 hc
    have hmem : c ∈ s.useSites id := by
      rw [← mem_distinct, hone]
      exact List.mem_singleton_self c
    exact ⟨hsites c hmem, h.consistent.has_of_mem_useSites hmem⟩
  · have heligible : ∀ c ∈ s.ids.filter fun c => c ≠ id && s.op c ≠ .start && isPlaced s c,
        isPlaced s c = true ∧ s.has c = true := by
      intro c hc
      obtain ⟨hid, hkeep⟩ := List.mem_filter.1 hc
      exact ⟨(Bool.and_eq_true_iff.1 hkeep).2, mem_ids.1 hid⟩
    obtain ⟨found, hfound⟩ := exists_filterHold fun c hc =>
      h.exists_isCandidate (heligible c hc).1 (distinct (s.valueInputs id)) (distinct (s.useSites id))
    exact .inr ⟨found, hfound, fun c hc => heligible c ((mem_filterHold hfound).1 hc).1⟩

theorem exists_latest (best : NodeId) (bound : Int64) {found : List NodeId}
    (hfound : ∀ c ∈ found, isPlaced s c = true) : ∃ winner, latest s best bound found = .ok winner := by
  induction found generalizing best bound with
  | nil => exact ⟨best, rfl⟩
  | cons c rest ih =>
      obtain ⟨last, hlast⟩ := h.placed c (hfound c List.mem_cons_self)
      obtain ⟨n, hn, -⟩ := h.numbered last hlast.isFixed
      have hrest : ∀ other ∈ rest, isPlaced s other = true := fun other hother =>
        hfound other (List.mem_cons_of_mem c hother)
      have hstep : latest s best bound (c :: rest)
          = if bound < n then latest s c n rest else latest s best bound rest := by
        rw [latest, fixedAnchor_eq_ok.2 hlast]
        change (sequence s last >>= fun n => if bound < n then latest s c n rest else latest s best bound rest) = _
        rw [hn]
        rfl
      rw [hstep]
      split
      · exact ih c n hrest
      · exact ih best bound hrest

/-- No number is below zero, so of several candidates one wins. -/
theorem latest_mem {found : List NodeId} (hne : found ≠ []) {winner : NodeId}
    (hlatest : latest s (-1) (-1) found = .ok winner) : winner ∈ found := by
  obtain ⟨top, -, hall, ⟨-, rfl⟩ | ⟨hmem, -⟩⟩ := latest_eq_ok hlatest
  · obtain ⟨c, hc⟩ := List.exists_mem_of_ne_nil _ hne
    obtain ⟨last, n, hlast, hn, hle⟩ := hall c hc
    obtain ⟨m, hm, hpos⟩ := h.numbered last hlast.isFixed
    rw [hn, Except.ok.injEq] at hm
    subst hm
    have hbound : (-1 : Int64).toInt = -1 := by decide
    omega
  · exact hmem

/-- A node is refused for want of a place, or gets one that is live. -/
theorem anchorFor_cases (id : NodeId) :
    (Placeless s id ∧ ∃ problem, anchorFor s id = .error (.stuck problem)) ∨ anchorFor s id = .ok none ∨
      ∃ anchor, anchorFor s id = .ok (some anchor) ∧ s.has anchor = true := by
  unfold anchorFor
  cases hready : isReady s id with
  | false => exact .inr (.inl rfl)
  | true =>
      rcases h.candidates_cases hready with ⟨hunused, hnone⟩ | ⟨found, hfound, hlive⟩
      · rw [hnone]
        exact .inl ⟨.inl hunused, _, rfl⟩
      · rw [hfound]
        cases found with
        | nil => exact .inl ⟨.inr hfound, _, rfl⟩
        | cons c rest =>
            have hplaced : ∀ x ∈ c :: rest, isPlaced s x = true := fun x hx => (hlive x hx).1
            obtain ⟨winner, hwinner⟩ := h.exists_latest (-1) (-1) hplaced
            have hmem := h.latest_mem (List.cons_ne_nil c rest) hwinner
            refine .inr (.inr ⟨winner, ?_, (hlive winner hmem).2⟩)
            exact bind_eq_ok.2 ⟨c :: rest, rfl, bind_eq_ok.2 ⟨winner, hwinner, rfl⟩⟩

/-- What is refused in a sweep is refused for want of a place: a place that is found can be
    linked. -/
theorem stuck_of_refuses {a : Anchoring} (ha : a.graph = s) {id : NodeId} (hid : s.has id = true) {cause : Error}
    (hrefuses : a.Refuses id cause) : Placeless s id ∧ ∃ problem, cause = .stuck problem := by
  subst ha
  rcases h.anchorFor_cases id with ⟨hplaceless, problem, hnone⟩ | hwaits | ⟨anchor, hanchor, hlive⟩
  · rcases hrefuses with hfor | ⟨anchor, hfor, -⟩
    · rw [hnone] at hfor
      cases hfor
      exact ⟨hplaceless, problem, rfl⟩
    · rw [hnone] at hfor
      cases hfor
  · rcases hrefuses with hfor | ⟨anchor, hfor, -⟩
    · rw [hwaits] at hfor
      cases hfor
    · rw [hwaits] at hfor
      cases hfor
  · rcases hrefuses with hfor | ⟨other, hfor, hplace⟩
    · rw [hanchor] at hfor
      cases hfor
    · rw [hanchor] at hfor
      cases hfor
      have hlink : a.graph.connect (anchorEdge id anchor) = .ok (a.graph.linkEdge (anchorEdge id anchor)) :=
        connect_eq_ok.2 ⟨hid, hlive, rfl⟩
      rw [Anchoring.place, hlink] at hplace
      cases hplace

end Founded

/-- Numbered from zero once, a graph stays so while its floating nodes are anchored. -/
theorem Anchored.founded {g s : Graph} {waiting : List NodeId} (h : Anchored g s waiting) (hg : g.Consistent)
    (hnumbered : ∀ id, g.isFixed id = true → ∃ n, sequence g id = .ok n ∧ 0 ≤ n.toInt) : Founded s where
  consistent := h.consistent hg
  placed _ hid := h.placedAt hid
  numbered id hid := by
    rw [h.sameProgram.isFixed] at hid
    obtain ⟨n, hn, hpos⟩ := hnumbered id hid
    refine ⟨n, ?_, hpos⟩
    rw [sequence_eq_ok, h.props, ← sequence_eq_ok]
    exact hn

theorem anchorFloating_causes {g : Graph} (hg : g.Consistent)
    (hnumbered : ∀ id, g.isFixed id = true → ∃ n, sequence g id = .ok n ∧ 0 ≤ n.toInt)
    (hfree : ∀ id, g.outputsNamed id .globalSchedule = []) {a : Anchoring} {cause : Error}
    (h : anchorFloating g = ⟨a, .error cause⟩) : Failure.Expected ⟨some .anchors, cause⟩ := by
  have hends := anchorFloating_ends (P := fun s waiting => Anchored g s waiting ∧ ∀ id ∈ waiting, s.has id = true)
    (g := g) ?_ ?_
  · obtain ⟨waiting, ⟨hanchored, hlive⟩, ⟨id, hid, hrefuses⟩ | ⟨-, n, label, rfl⟩⟩ := hends.of_eq_error h
    · have hfounded := hanchored.founded hg hnumbered
      obtain ⟨-, problem, rfl⟩ := hfounded.stuck_of_refuses rfl (hlive id hid) hrefuses
      trivial
    · trivial
  · rintro s front back id anchor ⟨hs, hlive⟩ hfor hid hanchor
    refine ⟨hs.place hfor hid hanchor, fun other hother => ?_⟩
    rw [has_linkEdge]
    exact hlive other (mem_of_mem_without hother)
  · exact ⟨anchored_initial hfree, fun id hid => mem_ids.1 (List.mem_of_mem_filter hid)⟩

/-! ## The whole schedule -/

/-- Numbers are given from zero. -/
theorem Ordered.exists_sequence {g s : Graph} (h : Ordered g s []) {id : NodeId} (hid : s.isFixed id = true) :
    ∃ n, sequence s id = .ok n ∧ 0 ≤ n.toInt := by
  have hsame : Graph.SameProgram g s := h.agree.sameProgram
  rw [hsame.isFixed] at hid
  obtain ⟨n, hn⟩ := h.numbered id (has_of_isFixed hid) hid (by simp)
  exact ⟨n, hn, (h.bound id n hn).1⟩

/-- A graph that no schedule was written into is refused by no check, and where its schedule
    fails the cause is one of the phase's own. -/
theorem run_causes {g : Graph} (h : g.Unannotated) (hsize : g.arena.size < 2 ^ 63) {failure : Failure}
    (hfails : (run g).failure? = some failure) : failure.Expected := by
  have hends := run_ends g
  rw [hfails] at hends
  generalize (run g).graph = left at hends
  cases hends with
  | refused hcheck =>
      rw [checkSchedulable_of_unscheduled h.roles h.oneStart h.consistent] at hcheck
      cases hcheck
  | order _ horder => exact orderFixed_causes horder
  | anchors hcheck horder hanchor =>
      have hordered := agree_orderFixed (fun _ => true) horder
      have hnumbered := ordered_of_orderFixed h.consistent hsize h.unnumbered horder
      exact anchorFloating_causes (h.consistent.congr hordered.inputs_eq hordered.outputs_eq)
        (fun _ hid => hnumbered.exists_sequence hid)
        (fun id => outputsNamed_eq_nil_of_orderFixed hcheck horder id .globalSchedule rfl) hanchor
  | @chains _ a _ _ _ _ _ hchain =>
      have hchains := chainAll_ends (P := fun _ => True) (fun _ _ _ => trivial) (g := a.graph) trivial
      obtain ⟨-, problem, rfl⟩ := hchains.of_eq_error hchain
      trivial

end SeaOfNodes.Schedule
