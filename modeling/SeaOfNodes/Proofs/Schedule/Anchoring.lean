/-
  SeaOfNodes.Proofs.Schedule.Anchoring

  Anchoring is total, unique and well-founded.  The invariant of the sweeps says
  that the nodes still waiting and the fixed ones have no anchor, and that every
  other floating node is settled: it has one anchor, the chain from there ends at
  a fixed node, and control leads from that node to the fixed anchor of every
  place that needs the value.  A placement only adds an anchor to a node that had
  none, so it breaks no chain.
-/
import SeaOfNodes.Proofs.Schedule.FixedAnchor
import SeaOfNodes.Proofs.Schedule.Sequence
import SeaOfNodes.Schedule

namespace SeaOfNodes.Schedule

open Relation

/-! ## The invariant -/

/-- Everything but the anchors. -/
def unanchored (role : Role) : Bool := role.name ≠ .globalSchedule

theorem unanchored_of_unscheduled {role : Role} (h : Graph.unscheduled role = true) :
    unanchored role = true := by
  cases role with
  | mk name index => cases name <;> simp_all [Graph.unscheduled, unanchored, Role.isSchedule,
      Role.Name.isSchedule]

/-- A floating node with a use, whose place leads by control to the places of all
    its uses. -/
def Settled (g : Graph) (id : NodeId) : Prop :=
  g.useSites id ≠ [] ∧ ∃ last, PlacedAt g id last ∧
    ∀ site ∈ g.useSites id, ∃ lastSite, PlacedAt g site lastSite ∧ ControlPath g last lastSite

/-- What holds while floating nodes of `g` are being anchored.  A fixed node may have
    anchors that nothing follows; it keeps them. -/
structure Placing (g s : Graph) (waiting : List NodeId) : Prop where
  agree : Graph.Agree unanchored g s
  nodup : waiting.Nodup
  floating : ∀ id ∈ waiting, g.isFixed id = false
  unplaced : ∀ id ∈ waiting, s.outputsNamed id .globalSchedule = []
  kept : ∀ id, g.isFixed id = true → s.outputsNamed id .globalSchedule = g.outputsNamed id .globalSchedule
  settled : ∀ id, g.has id = true → g.isFixed id = false → id ∉ waiting → Settled s id
  consistent : g.Consistent → s.Consistent
  props : ∀ id, s.props id = g.props id

/-- The same for a graph in which no node has an anchor to begin with. -/
structure Anchored (g s : Graph) (waiting : List NodeId) : Prop extends Placing g s waiting where
  fresh : ∀ id, g.outputsNamed id .globalSchedule = []

namespace Placing

variable {g s : Graph} {waiting : List NodeId} (h : Placing g s waiting)
include h

theorem sameProgram : Graph.SameProgram g s :=
  h.agree.mono fun _ => unanchored_of_unscheduled

/-- A floating node that does not wait is settled. -/
theorem settled_of_has {id : NodeId} (hid : s.has id = true) (hfloating : s.isFixed id = false)
    (hwait : id ∉ waiting) : Settled s id := by
  refine h.settled id ?_ ?_ hwait
  · rw [← h.agree.has]
    exact hid
  · rw [← h.sameProgram.isFixed]
    exact hfloating

/-- A node counts as placed only if its chain ends. -/
theorem placedAt {id : NodeId} (hplaced : isPlaced s id = true) : ∃ last, PlacedAt s id last := by
  cases hfixed : s.isFixed id with
  | true => exact ⟨id, [], .fixed hfixed⟩
  | false =>
      have hanchor : s.outputsNamed id .globalSchedule ≠ [] := by
        simpa [isPlaced, hfixed] using hplaced
      obtain ⟨e, he⟩ := List.exists_mem_of_ne_nil _ hanchor
      -- Whoever waits has no anchor, so this one is settled.
      have hwait : id ∉ waiting := fun hid => hanchor (h.unplaced id hid)
      obtain ⟨-, last, hlast, -⟩ :=
        h.settled_of_has (Graph.has_of_mem_outputs (List.mem_of_mem_filter he)) hfixed hwait
      exact ⟨last, hlast⟩

/-- A node that waits has no place. -/
theorem not_placedAt {id : NodeId} (hid : id ∈ waiting) (last : NodeId) : ¬ PlacedAt s id last := by
  rintro ⟨passed, hchain⟩
  cases hchain with
  | fixed hfixed =>
      rw [h.sameProgram.isFixed, h.floating id hid] at hfixed
      cases hfixed
  | anchored _ hanchor _ =>
      rw [h.unplaced id hid] at hanchor
      cases hanchor

/-- The inputs of a node that waits are fixed or wait themselves: a value is placed
    after its uses. -/
theorem isFixed_of_input (hs : s.Consistent) {id input : NodeId} (hid : id ∈ waiting)
    (hinput : input ∈ s.valueInputs id) (hplaced : isPlaced s input = true) : s.isFixed input = true := by
  by_contra hfloating
  rw [Bool.not_eq_true] at hfloating
  -- A floating input with a place would be settled, and its uses have places, this node among them.
  have hwait : input ∉ waiting := by
    intro hmem
    simp [isPlaced, hfloating, h.unplaced input hmem] at hplaced
  obtain ⟨-, last, -, hsites⟩ := h.settled_of_has (hs.has_of_mem_valueInputs hinput) hfloating hwait
  have hreader : s.isFixed id = false := by
    rw [h.sameProgram.isFixed]
    exact h.floating id hid
  obtain ⟨lastSite, hlastSite, -⟩ := hsites id (hs.mem_useSites_of_input hreader hinput)
  exact h.not_placedAt hid lastSite hlastSite

end Placing

/-- Neither a fixed node nor one that waits has an anchor. -/
theorem Anchored.free {g s : Graph} {waiting : List NodeId} (h : Anchored g s waiting) (id : NodeId)
    (hid : g.isFixed id = true ∨ id ∈ waiting) : s.outputsNamed id .globalSchedule = [] := by
  rcases hid with hfixed | hmem
  · rw [h.kept id hfixed]
    exact h.fresh id
  · exact h.unplaced id hmem

theorem Anchored.unanchored {g s : Graph} {waiting : List NodeId} (h : Anchored g s waiting) {id : NodeId}
    (hfixed : s.isFixed id = true) : s.outputsNamed id .globalSchedule = [] := by
  rw [h.sameProgram.isFixed] at hfixed
  exact h.free id (.inl hfixed)

/-! ## One placement -/

section Place

variable {s : Graph} {id anchor : NodeId}

/-- The edge from a floating node to its anchor. -/
abbrev anchorEdge (id anchor : NodeId) : Edge := ⟨id, anchor, .globalSchedule⟩

theorem outputsNamed_link_anchor (hid : s.has id = true) (anchor other : NodeId) :
    (s.linkEdge (anchorEdge id anchor)).outputsNamed other .globalSchedule
      = if other = id then s.outputsNamed other .globalSchedule ++ [anchorEdge id anchor]
        else s.outputsNamed other .globalSchedule := by
  unfold Graph.outputsNamed Graph.outputsWhere
  rw [Graph.outputs_linkEdge s _ other hid]
  split <;> simp [Role.globalSchedule, Role.plain]

theorem agree_link_anchor (hid : s.has id = true) (hanchor : s.has anchor = true) :
    Graph.Agree unanchored s (s.linkEdge (anchorEdge id anchor)) :=
  Graph.agree_linkEdge hid hanchor (by simp [unanchored, Role.globalSchedule, Role.plain])

theorem sameProgram_link_anchor (hid : s.has id = true) (hanchor : s.has anchor = true) :
    Graph.SameProgram s (s.linkEdge (anchorEdge id anchor)) :=
  (agree_link_anchor hid hanchor).mono fun _ => unanchored_of_unscheduled

/-- A node without an anchor is on no chain, so giving it one keeps them all. -/
theorem PlacedAt.link_anchor {x last : NodeId} (h : PlacedAt s x last)
    (hid : s.has id = true) (hanchor : s.has anchor = true)
    (hfree : s.outputsNamed id .globalSchedule = []) :
    PlacedAt (s.linkEdge (anchorEdge id anchor)) x last := by
  obtain ⟨passed, hchain⟩ := h
  have hmem : id ∉ passed := fun hmem => hchain.anchor_of_mem hmem hfree
  refine ⟨passed, hchain.transfer (sameProgram_link_anchor hid hanchor).isFixed fun x hx => ?_⟩
  rw [outputsNamed_link_anchor hid, if_neg]
  rintro rfl
  exact hmem hx

/-- The node itself is placed where its anchor is. -/
theorem PlacedAt.link_anchor_self {last : NodeId} (h : PlacedAt s anchor last) (hfloating : s.isFixed id = false)
    (hid : s.has id = true) (hanchor : s.has anchor = true) (hfree : s.outputsNamed id .globalSchedule = []) :
    PlacedAt (s.linkEdge (anchorEdge id anchor)) id last := by
  obtain ⟨passed, hchain⟩ := h.link_anchor hid hanchor hfree
  refine ⟨id :: passed, .anchored (e := anchorEdge id anchor) ?_ ?_ hchain⟩
  · rw [(sameProgram_link_anchor hid hanchor).isFixed]
    exact hfloating
  · rw [outputsNamed_link_anchor hid, if_pos rfl, hfree]
    rfl

theorem Settled.link_anchor {x : NodeId} (h : Settled s x) (hid : s.has id = true)
    (hanchor : s.has anchor = true) (hfree : s.outputsNamed id .globalSchedule = []) :
    Settled (s.linkEdge (anchorEdge id anchor)) x := by
  have hsame := sameProgram_link_anchor hid hanchor
  obtain ⟨hused, last, hlast, hsites⟩ := h
  rw [Settled, hsame.useSites]
  refine ⟨hused, last, hlast.link_anchor hid hanchor hfree, fun site hsite => ?_⟩
  obtain ⟨lastSite, hlastSite, hpath⟩ := hsites site hsite
  rw [ControlPath.agree hsame]
  exact ⟨lastSite, hlastSite.link_anchor hid hanchor hfree, hpath⟩

end Place

/-- The anchor chosen for a node is placed, and control leads from its place to
    those of all uses. -/
theorem Placing.of_anchorFor {g s : Graph} {waiting : List NodeId} (h : Placing g s waiting)
    {id anchor : NodeId} (hfor : anchorFor s id = .ok (some anchor)) (hanchor : s.has anchor = true) :
    s.useSites id ≠ [] ∧ ∃ last, PlacedAt s anchor last ∧
      ∀ site ∈ s.useSites id, ∃ lastSite, PlacedAt s site lastSite ∧ ControlPath s last lastSite := by
  obtain ⟨hplaced, hused, hchoice⟩ := anchorFor_eq_some hfor hanchor
  obtain ⟨first, hfirst⟩ := List.exists_mem_of_ne_nil _ hused
  refine ⟨hused, ?_⟩
  rcases hchoice with hsame | ⟨-, -, -, hreach, -⟩
  · -- One place needs the value: that is the anchor, and control leads from it to itself.
    obtain rfl := hsame first hfirst
    obtain ⟨last, hlast⟩ := h.placedAt (hplaced first hfirst)
    refine ⟨last, hlast, fun site hsite => ?_⟩
    rw [hsame site hsite]
    exact ⟨last, hlast, ReflTransGen.refl⟩
  · -- Several do, and the anchor was tested against all of them.
    obtain ⟨last, -, hlast, -, -⟩ := hreach first hfirst
    refine ⟨last, hlast, fun site hsite => ?_⟩
    obtain ⟨lastA, lastB, hA, hB, hpath⟩ := hreach site hsite
    rw [hA.unique hlast] at hpath
    exact ⟨lastB, hB, hpath⟩

/-- A placement keeps the invariant. -/
theorem Placing.place {g s : Graph} {front back : List NodeId} {id anchor : NodeId}
    (h : Placing g s (front ++ id :: back)) (hfor : anchorFor s id = .ok (some anchor))
    (hid : s.has id = true) (hanchor : s.has anchor = true) :
    Placing g (s.linkEdge (anchorEdge id anchor)) (front ++ back) := by
  have hwait : id ∈ front ++ id :: back := by simp
  -- The node had no anchor, so it was on no chain and all others stay where they are.
  have hfree := h.unplaced id hwait
  have hperm : (front ++ id :: back).Perm (id :: (front ++ back)) := List.perm_middle
  have hnodup : (id :: (front ++ back)).Nodup := hperm.nodup_iff.1 h.nodup
  have hsame := sameProgram_link_anchor hid hanchor
  have hlink := outputsNamed_link_anchor hid anchor
  refine ⟨h.agree.trans (agree_link_anchor hid hanchor), (List.nodup_cons.1 hnodup).2, ?_, ?_, ?_, ?_,
    fun hg => (h.consistent hg).linkEdge hid hanchor, fun x => ?_⟩
  · intro x hx
    exact h.floating x (mem_of_mem_without hx)
  · intro x hx
    have hxid : x ≠ id := by
      rintro rfl
      exact (List.nodup_cons.1 hnodup).1 hx
    rw [hlink, if_neg hxid]
    exact h.unplaced x (mem_of_mem_without hx)
  · intro x hx
    have hxid : x ≠ id := by
      rintro rfl
      rw [h.floating x hwait] at hx
      cases hx
    rw [hlink, if_neg hxid]
    exact h.kept x hx
  · intro x hhas hfloating hx
    by_cases hxid : x = id
    · subst hxid
      -- The node itself gets the place of its anchor.
      obtain ⟨hused, last, hlast, hsites⟩ := h.of_anchorFor hfor hanchor
      have hplaced := hlast.link_anchor_self (by rw [h.sameProgram.isFixed]; exact hfloating) hid hanchor hfree
      rw [Settled, hsame.useSites]
      refine ⟨hused, last, hplaced, fun site hsite => ?_⟩
      obtain ⟨lastSite, hlastSite, hpath⟩ := hsites site hsite
      rw [ControlPath.agree hsame]
      exact ⟨lastSite, hlastSite.link_anchor hid hanchor hfree, hpath⟩
    · refine (h.settled x hhas hfloating ?_).link_anchor hid hanchor hfree
      intro hmem
      rcases List.mem_cons.1 (hperm.mem_iff.1 hmem) with hx' | hx'
      · exact hxid hx'
      · exact hx hx'
  · rw [Graph.props_linkEdge, h.props]

theorem Anchored.place {g s : Graph} {front back : List NodeId} {id anchor : NodeId}
    (h : Anchored g s (front ++ id :: back)) (hfor : anchorFor s id = .ok (some anchor))
    (hid : s.has id = true) (hanchor : s.has anchor = true) :
    Anchored g (s.linkEdge (anchorEdge id anchor)) (front ++ back) :=
  ⟨h.toPlacing.place hfor hid hanchor, h.fresh⟩

/-! ## Sweeps -/

theorem Anchoring.place_eq_ok {a a' : Anchoring} {id anchor : NodeId}
    (h : a.place id anchor = .ok a') :
    a.graph.has id = true ∧ a.graph.has anchor = true ∧
      a'.graph = a.graph.linkEdge (anchorEdge id anchor) := by
  rw [place] at h
  cases hconnect : a.graph.connect (anchorEdge id anchor) with
  | error cause => simp [hconnect] at h
  | ok g =>
      obtain ⟨hid, hanchor, rfl⟩ := Graph.connect_eq_ok.1 hconnect
      simp only [hconnect, Except.ok.injEq] at h
      subst h
      exact ⟨hid, hanchor, rfl⟩

/-- A node gets no place: no anchor is found for it, or the one that is cannot be linked. -/
def Anchoring.Refuses (a : Anchoring) (id : NodeId) (cause : Error) : Prop :=
  anchorFor a.graph id = .error cause ∨
    ∃ anchor, anchorFor a.graph id = .ok (some anchor) ∧ a.place id anchor = .error cause

/-- A node that is passed over waits for a use. -/
theorem isReady_of_anchorFor_none {g : Graph} {id : NodeId} (h : anchorFor g id = .ok none) : isReady g id = false := by
  unfold anchorFor at h
  cases hready : isReady g id with
  | false => rfl
  | true =>
      simp only [hready, Bool.not_true, Bool.false_eq_true, if_false] at h
      obtain ⟨found, -, h⟩ := bind_eq_ok.1 h
      split at h
      · cases h
      · obtain ⟨winner, -, hwinner⟩ := bind_eq_ok.1 h
        cases hwinner

/-- Nodes are left, and each of them waits for a use. -/
def Stalled (g : Graph) (waiting : List NodeId) : Prop := waiting ≠ [] ∧ ∀ id ∈ waiting, isReady g id = false

section Keeps

variable {P : Graph → List NodeId → Prop}
  (hstep : ∀ {s : Graph} {front back : List NodeId} {id anchor : NodeId}, P s (front ++ id :: back) →
    anchorFor s id = .ok (some anchor) → s.has id = true → s.has anchor = true →
    P (s.linkEdge (anchorEdge id anchor)) (front ++ back))
include hstep

/-- What a placement keeps a sweep keeps, up to a node that gets no place.  Nodes that have to
    wait move from those to do to those kept.  Where none is placed, none was ready. -/
theorem anchorSweep_ends {a : Anchoring} {todo : List NodeId} (kept : List NodeId) (h : P a.graph (kept ++ todo)) :
    (anchorSweep a todo).Ends (fun a' left => P a'.graph (kept ++ left) ∧ left.length ≤ todo.length ∧
        (left.length = todo.length → a'.graph = a.graph ∧ ∀ id ∈ left, isReady a.graph id = false))
      fun a cause => ∃ waiting, P a.graph waiting ∧ ∃ id ∈ waiting, a.Refuses id cause := by
  induction todo generalizing a kept with
  | nil => exact ⟨h, Nat.le_refl _, fun _ => ⟨rfl, by simp⟩⟩
  | cons id rest ih =>
      rw [anchorSweep]
      cases hfor : anchorFor a.graph id with
      | error cause => exact ⟨kept ++ id :: rest, h, id, by simp, .inl hfor⟩
      | ok anchor? =>
          cases anchor? with
          | none =>
              -- A node that has to wait joins those kept.
              refine Outcome.Ends.map ((ih (kept ++ [id]) (by simpa using h)).imp_done ?_)
              rintro a' left ⟨hkept, hlen, hnone⟩
              refine ⟨by simpa using hkept, by simpa using hlen, fun hsame => ?_⟩
              obtain ⟨hgraph, hwaits⟩ := hnone (by simpa using hsame)
              exact ⟨hgraph, List.forall_mem_cons.2 ⟨isReady_of_anchorFor_none hfor, hwaits⟩⟩
          | some anchor =>
              dsimp only
              cases hplace : a.place id anchor with
              | error cause => exact ⟨kept ++ id :: rest, h, id, by simp, .inr ⟨anchor, hfor, hplace⟩⟩
              | ok next =>
                  obtain ⟨hid, hanchor, hgraph⟩ := Anchoring.place_eq_ok hplace
                  have hnext : P next.graph (kept ++ rest) := by
                    rw [hgraph]
                    exact hstep h hfor hid hanchor
                  refine (ih kept hnext).imp_done ?_
                  rintro a' left ⟨hkept, hlen, -⟩
                  simp only [List.length_cons]
                  exact ⟨hkept, by omega, by omega⟩

/-- What a placement keeps holds when nothing waits, and also where a node gets no place or
    all that are left wait for a use.  A sweep that does not shorten the list fails, so there are sweeps
    enough. -/
theorem anchorFloating_ends {g : Graph} (h : P g (g.ids.filter g.isFloating)) :
    (anchorFloating g).Ends (fun a _ => P a.graph []) fun a cause => ∃ waiting, P a.graph waiting ∧
      ((∃ id ∈ waiting, a.Refuses id cause) ∨
        Stalled a.graph waiting ∧ ∃ n label, cause = .stuck (.neverReady n label)) := by
  have hloop : ∀ (sweeps : Nat) (a : Anchoring) (waiting : List NodeId), P a.graph waiting →
      waiting.length ≤ sweeps → (anchorLoop sweeps a waiting).Ends (fun a _ => P a.graph [])
        fun a cause => ∃ waiting, P a.graph waiting ∧
          ((∃ id ∈ waiting, a.Refuses id cause) ∨
            Stalled a.graph waiting ∧ ∃ n label, cause = .stuck (.neverReady n label)) := by
    intro sweeps
    induction sweeps with
    | zero =>
        intro a waiting h hsweeps
        obtain rfl := List.length_eq_zero_iff.1 (Nat.le_zero.1 hsweeps)
        exact h
    | succ sweeps ih =>
        rintro a (_ | ⟨first, rest⟩) h hsweeps
        · exact h
        · rw [anchorLoop]
          · refine ((anchorSweep_ends hstep [] h).imp_failed ?_).andThen ?_
            · rintro a cause ⟨waiting, hwaiting, hrefused⟩
              exact ⟨waiting, hwaiting, .inl hrefused⟩
            · rintro a' (_ | ⟨other, more⟩) ⟨hkept, hlen, hnone⟩
              · exact hkept
              · dsimp only
                split
                · rename_i hsame
                  obtain ⟨hgraph, hwaits⟩ := hnone hsame
                  exact ⟨_, hkept, .inr ⟨⟨List.cons_ne_nil _ _, by rwa [hgraph]⟩, _, _, rfl⟩⟩
                · rename_i hshort
                  exact ih a' _ hkept (by simp only [List.length_cons] at *; omega)
          · simp
  exact hloop _ ⟨g, []⟩ _ h (Nat.le_refl _)

theorem anchorFloating_keeps {g : Graph} {a : Anchoring} (h : P g (g.ids.filter g.isFloating))
    (hanchor : anchorFloating g = .done a ()) : P a.graph [] :=
  (anchorFloating_ends hstep h).of_eq_ok hanchor

end Keeps

/-! ## Before the first sweep -/

/-- A graph that passes the check carries no schedule edge. -/
theorem isSchedule_eq_false_of_checkSchedulable {g : Graph} (h : checkSchedulable g = .ok ())
    {id : NodeId} {e : Edge} (he : e ∈ g.outputs id) : e.role.isSchedule = false := by
  rw [checkSchedulable] at h
  split at h
  · cases h
  · split at h
    · cases h
    · rename_i hnone
      have hid : id ∈ g.ids := Graph.mem_ids.2 (Graph.has_of_mem_outputs he)
      have := List.find?_eq_none.1 hnone e (List.mem_flatMap.2 ⟨id, hid, he⟩)
      simpa using this

theorem outputsNamed_eq_nil_of_checkSchedulable {g : Graph} (h : checkSchedulable g = .ok ())
    (id : NodeId) (name : Role.Name) (hname : name.isSchedule = true) : g.outputsNamed id name = [] := by
  refine List.filter_eq_nil_iff.2 fun e he hrole => ?_
  have hfalse := isSchedule_eq_false_of_checkSchedulable h he
  rw [Role.isSchedule, of_decide_eq_true hrole, hname] at hfalse
  cases hfalse

theorem oneStart_of_checkSchedulable {g : Graph} (h : checkSchedulable g = .ok ()) :
    (g.find .start).length = 1 := by
  rw [checkSchedulable] at h
  by_contra hstarts
  simp [hstarts] at h

/-- Numbering adds none. -/
theorem outputsNamed_eq_nil_of_orderFixed {g ordered : Graph} (hcheck : checkSchedulable g = .ok ())
    (horder : orderFixed g = .done ordered ()) (id : NodeId) (name : Role.Name) (hname : name.isSchedule = true) :
    ordered.outputsNamed id name = [] := by
  have hsame := agree_orderFixed (fun _ => true) horder
  rw [Graph.outputsNamed, hsame.outputsWhere_of_le fun _ _ => rfl]
  exact outputsNamed_eq_nil_of_checkSchedulable hcheck id name hname

theorem placing_initial {g : Graph} (hfree : ∀ id, g.isFixed id = false → g.outputsNamed id .globalSchedule = []) :
    Placing g g (g.ids.filter g.isFloating) where
  agree := .refl _ g
  nodup := g.nodup_ids.filter _
  floating id hid := by simpa [Graph.isFloating] using (List.mem_filter.1 hid).2
  unplaced id hid := hfree id (by simpa [Graph.isFloating] using (List.mem_filter.1 hid).2)
  kept _ _ := rfl
  settled id hhas hfloating hwait :=
    absurd (List.mem_filter.2 ⟨Graph.mem_ids.2 hhas, by simp [Graph.isFloating, hfloating]⟩) hwait
  consistent := id
  props _ := rfl

theorem anchored_initial {g : Graph}
    (hfree : ∀ id, g.outputsNamed id .globalSchedule = []) :
    Anchored g g (g.ids.filter g.isFloating) :=
  ⟨placing_initial fun id _ => hfree id, hfree⟩

/-- After a successful run nothing waits. -/
theorem placing_of_anchorFloating {g : Graph} {a : Anchoring}
    (hfree : ∀ id, g.isFixed id = false → g.outputsNamed id .globalSchedule = [])
    (h : anchorFloating g = .done a ()) : Placing g a.graph [] :=
  anchorFloating_keeps (fun hs hfor hid hanchor => hs.place hfor hid hanchor) (placing_initial hfree) h

theorem anchored_of_anchorFloating {g : Graph} {a : Anchoring}
    (hfree : ∀ id, g.outputsNamed id .globalSchedule = []) (h : anchorFloating g = .done a ()) :
    Anchored g a.graph [] :=
  ⟨placing_of_anchorFloating (fun id _ => hfree id) h, hfree⟩

/-- A floating node that only one place uses is anchored to that place. -/
theorem anchorEdge_of_sole_use {g : Graph} {a : Anchoring}
    (hfree : ∀ id, g.isFixed id = false → g.outputsNamed id .globalSchedule = [])
    (h : anchorFloating g = .done a ()) {id site : NodeId} (hid : g.has id = true)
    (hfloating : g.isFixed id = false) (hsole : ∀ x ∈ g.useSites id, x = site) :
    anchorEdge id site ∈ a.graph.outputs id := by
  -- The anchor is placed when the node's turn comes; later turns add edges at other nodes.
  refine (anchorFloating_keeps (P := fun s waiting => Placing g s waiting ∧
    (id ∉ waiting → anchorEdge id site ∈ s.outputs id)) ?_ ⟨placing_initial hfree, fun hwait => ?_⟩ h).2
    List.not_mem_nil
  · rintro s front back x anchor ⟨hs, hplaced⟩ hfor hx hanchor
    refine ⟨hs.place hfor hx hanchor, fun hwait => ?_⟩
    rw [Graph.outputs_linkEdge s _ id hx]
    by_cases hxid : id = x
    · subst hxid
      obtain rfl := anchor_eq_of_sole_use hfor hanchor (by rw [hs.sameProgram.useSites]; exact hsole)
      rw [if_pos rfl]
      exact List.mem_append_right _ (List.mem_singleton_self _)
    · rw [if_neg hxid]
      refine hplaced fun hmem => hwait ?_
      rcases List.mem_append.1 hmem with hmem | hmem
      · exact List.mem_append_left _ hmem
      · exact List.mem_append_right _ ((List.mem_cons.1 hmem).resolve_left hxid)
  · refine absurd (List.mem_filter.2 ⟨Graph.mem_ids.2 hid, ?_⟩) hwait
    rw [Graph.isFloating, hfloating]
    rfl

end SeaOfNodes.Schedule
