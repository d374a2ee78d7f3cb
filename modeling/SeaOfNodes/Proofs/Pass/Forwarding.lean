/-
  SeaOfNodes.Proofs.Pass.Forwarding

  What a run that bypasses phis does to a graph as a whole.  Each node that goes is a phi and
  hands its readers on to one that stays, and a node that stays reads, place by place, the nodes
  that those it read have handed their readers on to.  The map that says which these are is
  built up visit by visit: where a phi leads may itself be bypassed later.
-/
import SeaOfNodes.Proofs.Graph.Positions
import SeaOfNodes.Proofs.Pass.Idle

namespace SeaOfNodes.Graph

/-! ## Inputs that were forwarded -/

/-- A node whose inputs are forwarded reads the nodes that those it read are forwarded to. -/
theorem valueInputs_of_forwarded {g g' : Graph} {rho : NodeId → NodeId} {id : NodeId}
    (h : g'.inputs id = (g.inputs id).map (forwardEdge rho)) : g'.valueInputs id = (g.valueInputs id).map rho := by
  have hkept : (g.inputs id).filter ((fun e => e.role.isValue) ∘ forwardEdge rho) = g.inputsWhere id Role.isValue := by
    apply List.filter_congr
    intro e _
    exact congrArg Role.isValue (role_forwardEdge rho e)
  rw [valueInputs, valueInputs, inputsWhere, h, List.filter_map, hkept, List.map_map, List.map_map]
  apply List.map_congr_left
  intro e he
  have hvalue : e.role.isValue = true := (List.mem_filter.1 he).2
  exact congrArg Edge.source (forwardEdge_of_isValue rho e hvalue)

/-- Control still reaches it from where it did. -/
theorem mem_controlSuccessors_of_forwarded {g g' : Graph} (hg : g.Consistent) (hg' : g'.Consistent)
    {rho : NodeId → NodeId} {id next : NodeId} (h : g'.inputs next = (g.inputs next).map (forwardEdge rho))
    (hnext : next ∈ g.controlSuccessors id) : next ∈ g'.controlSuccessors id := by
  obtain ⟨role, hcontrol, hpos⟩ := hg.mem_controlSuccessors.1 hnext
  have hvalue : ¬ role.isValue = true := by simp [Role.isValue_of_isControl hcontrol]
  have hedge : (⟨id, next, role⟩ : Edge) ∈ g'.inputs next := by
    rw [h]
    exact List.mem_map.2 ⟨_, hg.mem_inputs (multiplicity_pos.1 hpos), forwardEdge_of_not_isValue rho _ hvalue⟩
  exact hg'.mem_controlSuccessors.2 ⟨role, hcontrol, multiplicity_pos.2 (hg'.mem_outputs hedge)⟩

/-- A node that is gone was a phi all of whose inputs are forwarded to where it is forwarded to itself,
    and what control left it for went before it. -/
structure HandedOn (g g' : Graph) (rho : NodeId → NodeId) (id : NodeId) : Prop where
  op : g.op id = .phi
  control : ∀ next ∈ g.controlSuccessors id, next < id ∧ g'.has next = false
  reads : g.valueInputs id ≠ []
  sources : ∀ source ∈ g.valueInputs id, rho source = rho id

/-- It stays so when those that it leads to hand their readers on in turn. -/
theorem HandedOn.lead_on {g s s' : Graph} {rho : NodeId → NodeId} {id : NodeId} (h : HandedOn g s rho id)
    (hgone : ∀ id, s.has id = false → s'.has id = false) (tau : NodeId → NodeId) : HandedOn g s' (tau ∘ rho) id where
  op := h.op
  control next hnext := ⟨(h.control next hnext).1, hgone next (h.control next hnext).2⟩
  reads := h.reads
  sources source hsource := congrArg tau (h.sources source hsource)

/-- A graph has lost nodes that handed their readers on to others, and `rho` says to which. -/
structure Forwarding (g g' : Graph) (rho : NodeId → NodeId) : Prop where
  thins : Thins g g'
  survives : ∀ id, g.has id = true → g'.has (rho id) = true
  fixes : ∀ id, g'.has id = true → rho id = id
  inputs : ∀ id, g'.has id = true → g'.inputs id = (g.inputs id).map (forwardEdge rho)
  removed : ∀ id, g.has id = true → g'.has id = false → HandedOn g g' rho id

theorem Forwarding.refl (g : Graph) : Forwarding g g id where
  thins := .refl g
  survives _ hid := hid
  fixes _ _ := rfl
  inputs id _ := by
    rw [List.map_congr_left fun e _ => forwardEdge_id e, List.map_id']
  removed id hid hgone := by
    rw [hid] at hgone
    cases hgone

end SeaOfNodes.Graph

namespace SeaOfNodes.Pass.NoChoice

open SeaOfNodes.Graph

/-! ## One phi -/

/-- A phi without a choice has been bypassed: its readers were handed on and it was removed. -/
structure Bypasses (s s' : Graph) (phi source : NodeId) : Prop where
  choice : s.soleChoice? phi = some source
  lacks : Lacks s s' phi
  inputs : ∀ id, id ≠ phi → s'.inputs id = (s.inputs id).map (forwardEdge (rename phi source))

/-- Once the uses of a node that control does not leave are handed on, no edge leaves it. -/
theorem outputs_eq_nil_of_replaceUses {g g' : Graph} {phi source : NodeId} (hg : g.Consistent)
    (hroles : g.Unscheduled) (hcontrol : g.hasControlOutput phi = false) (h : g.replaceUses phi source = .ok g') :
    g'.outputs phi = [] := by
  obtain ⟨-, -, -, -, hlaw⟩ := hg.replaceUses_law h
  refine List.eq_nil_iff_forall_not_mem.2 fun e he => ?_
  obtain rfl := (hg.replaceUses h).source_eq phi e he
  have hpos := multiplicity_pos.2 he
  rw [hlaw, if_pos rfl] at hpos
  split at hpos
  · exact absurd hpos (Nat.lt_irrefl 0)
  · rename_i hvalue
    have hleaves := hg.mem_controlSuccessors.2 ⟨e.role, (hroles e hpos).resolve_right hvalue, hpos⟩
    rw [hg.hasControlOutput_eq_false_iff.1 hcontrol] at hleaves
    cases hleaves

theorem bypasses_of_visit {r r' : Change} {phi : NodeId} (h : visit r phi = .ok r') (hr : r.graph.Consistent)
    (hroles : r.graph.Unscheduled) : r' = r ∨ ∃ source, Bypasses r.graph r'.graph phi source := by
  rcases visit_eq_ok h with ⟨-, hsame⟩ | ⟨source, forwarded, hchoice, hforwarded, hremoved, -⟩
  · exact .inl hsame
  · obtain ⟨-, -, -, hnodes, -⟩ := hr.replaceUses_law hforwarded
    have hconsistent := hr.replaceUses hforwarded
    have hout := outputs_eq_nil_of_replaceUses hr hroles (soleChoice?_eq_some hchoice).1 hforwarded
    refine .inr ⟨source, hchoice, hnodes.lacks (hconsistent.remove_law hremoved).1, fun id hid => ?_⟩
    rw [hconsistent.inputs_remove hout hremoved hid, hr.inputs_replaceUses hforwarded]

section Bypasses

variable {g s s' : Graph} {rho : NodeId → NodeId} {phi source : NodeId} (h : Forwarding g s rho)
  (hg : g.Consistent) (hs : s.Consistent) (hgone : ∀ id, g.has id = true → s.has id = false → id < phi)
  (hphi : g.op phi = .phi) (hbypass : Bypasses s s' phi source)
include h hg hs hgone hphi hbypass

/-- The phi that goes reads what leads to its source, and control left it for phis that went before. -/
theorem handedOn_of_bypasses : HandedOn g s' (rename phi source ∘ rho) phi := by
  obtain ⟨hcontrol, hself, hsources⟩ := soleChoice?_eq_some hbypass.choice
  have hlive := hbypass.lacks.has_id
  have hinputs := valueInputs_of_forwarded (h.inputs phi hlive)
  refine ⟨hphi, fun next hnext => ?_, fun hnil => ?_, fun x hx => ?_⟩
  · have hlost : s.has next = false := by
      rw [← Bool.not_eq_true]
      intro hstays
      -- Control would still leave the phi for a node that is still there.
      have hleaves := mem_controlSuccessors_of_forwarded hg hs (h.inputs next hstays) hnext
      rw [hs.hasControlOutput_eq_false_iff.1 hcontrol] at hleaves
      cases hleaves
    obtain ⟨role, -, hpos⟩ := hg.mem_controlSuccessors.1 hnext
    exact ⟨hgone next (hg.has_of_multiplicity hpos).2 hlost, hbypass.lacks.gone hlost⟩
  · have hread := (hsources source).2 rfl
    rw [hinputs, hnil] at hread
    cases hread
  · -- All that the phi reads by now is the source, and what it read leads there.
    have hread : rho x ∈ s.valueInputs phi := by
      rw [hinputs]
      exact List.mem_map_of_mem hx
    show rename phi source (rho x) = rename phi source (rho phi)
    rw [(hsources (rho x)).1 hread, h.fixes phi hlive, rename, rename, if_neg hself, if_pos rfl]

/-- Where phis were bypassed before, the map leads on from the phi to its source. -/
theorem forwarding_bypass : Forwarding g s' (rename phi source ∘ rho) := by
  obtain ⟨-, hself, -⟩ := soleChoice?_eq_some hbypass.choice
  obtain ⟨-, hsource⟩ := live_of_soleChoice? hs hbypass.choice
  have hstays : ∀ id, s'.has id = true → s.has id = true ∧ id ≠ phi := fun id hid => (hbypass.lacks.has id).1 hid
  refine ⟨h.thins.trans (.of_lacks hbypass.lacks), fun id hid => ?_, fun id hid => ?_, fun id hid => ?_,
    fun id hid hlost => ?_⟩
  · -- Where a node led may be the phi, and then it leads on to the source, which stays.
    show s'.has (rename phi source (rho id)) = true
    rw [rename, hbypass.lacks.has]
    split
    · exact ⟨hsource, hself⟩
    · exact ⟨h.survives id hid, ‹_›⟩
  · obtain ⟨hid, hne⟩ := hstays id hid
    show rename phi source (rho id) = id
    rw [h.fixes id hid, rename, if_neg hne]
  · -- Inputs that were forwarded before are forwarded once more.
    obtain ⟨hid, hne⟩ := hstays id hid
    rw [hbypass.inputs id hne, h.inputs id hid, List.map_map]
    exact List.map_congr_left fun e _ => forwardEdge_forwardEdge rho e _
  · by_cases hbefore : s.has id = false
    · exact (h.removed id hid hbefore).lead_on (fun _ => hbypass.lacks.gone) _
    · -- Of the nodes that were left only the phi goes.
      obtain rfl : id = phi := by
        by_contra hne
        rw [(hbypass.lacks.has id).2 ⟨by simpa using hbefore, hne⟩] at hlost
        cases hlost
      exact handedOn_of_bypasses h hg hs hgone hphi hbypass

end Bypasses

/-! ## A run -/

/-- What holds while phis are visited: the nodes that are gone are among those visited, and they have
    handed their readers on. -/
structure Forwarded (g : Graph) (front : List NodeId) (r : Change) : Prop where
  visited : Visited g front r
  roles : r.graph.Unscheduled
  forwarding : ∃ rho, Forwarding g r.graph rho

theorem Forwarded.visit {g : Graph} (hg : g.Consistent) {front back : List NodeId} {phi : NodeId} {r r' : Change}
    (hphis : g.find .phi = front ++ phi :: back) (h : Forwarded g front r) (hvisit : visit r phi = .ok r') :
    Forwarded g (front ++ [phi]) r' := by
  have hvisited := h.visited.visit hvisit
  obtain ⟨rho, hforwarding⟩ := h.forwarding
  have hr := h.visited.consistent
  rcases bypasses_of_visit hvisit hr h.roles with rfl | ⟨source, hbypass⟩
  · exact ⟨hvisited, h.roles, rho, hforwarding⟩
  -- Phis are visited in ascending order.
  have hascending : (front ++ phi :: back).Pairwise (· < ·) := by
    rw [← hphis]
    exact g.pairwise_lt_ids.filter _
  have hgone : ∀ id, g.has id = true → r.graph.has id = false → id < phi := by
    intro id hid hlost
    have hfront : id ∈ front := by
      by_contra hnot
      rw [h.visited.live id hid hnot] at hlost
      cases hlost
    exact (List.pairwise_append.1 hascending).2.2 id hfront phi List.mem_cons_self
  have hphi : g.op phi = .phi := by
    rw [← mem_find_iff (by decide), hphis]
    simp
  refine ⟨hvisited, ?_, _, forwarding_bypass hforwarding hg hr hgone hphi hbypass⟩
  rcases bypassed_of_visit hvisit hr with rfl | hbypassed
  · exact h.roles
  · intro e he
    obtain ⟨x, hx, hrole⟩ := hbypassed.roles e he
    rw [← hrole]
    exact h.roles x hx

/-- A run that bypasses phis succeeds and only forwards values: some map leads from every node to one
    that stays and leaves those that stay alone.  Nodes that stay keep their operation, their properties
    and their inputs, where each value comes from the node that its old source leads to.  Nodes that go
    are phis whose sources all lead where they lead, and control left them only for phis that went
    before them. -/
theorem run_forwards {g : Graph} (hg : g.Consistent) (hroles : g.Unscheduled) :
    ∃ r rho, run g = .ok r ∧ Forwarding g r.graph rho := by
  obtain ⟨r, hrun⟩ := exists_run hg
  have hstart : Forwarded g [] ⟨g, 0⟩ := ⟨.refl hg, hroles, id, .refl g⟩
  have hend : Forwarded g (g.find .phi) r := by
    refine foldlM_front (Forwarded g) ?_ hrun hstart
    intro front phi back before after hphis hbefore hvisit
    exact hbefore.visit hg hphis hvisit
  obtain ⟨rho, hforwarding⟩ := hend.forwarding
  exact ⟨r, rho, hrun, hforwarding⟩

/-- Of two phis the second reads the first, and both choose between copies of one argument. -/
def nestedPhis : Graph :=
  Graph.assemble [.arg, .phi, .phi, .trace] [⟨0, 1, .valueN 0⟩, ⟨0, 1, .valueN 1⟩, ⟨1, 2, .valueN 0⟩,
    ⟨0, 2, .valueN 1⟩, ⟨2, 3, .value⟩]

/-- Both phis go, one after the other, and lead to the argument: it is read in their stead. -/
theorem run_nestedPhis_forwards :
    nestedPhis.Consistent ∧ nestedPhis.Unscheduled ∧
      ∃ r rho, run nestedPhis = .ok r ∧ Forwarding nestedPhis r.graph rho ∧ r.graph.ids = [0, 3] ∧
        r.graph.inputs 3 = [⟨0, 3, .value⟩] ∧ rho 1 = 0 ∧ rho 2 = 0 := by
  have hconsistent : nestedPhis.Consistent := consistent_assemble (by decide)
  have hroles : nestedPhis.Unscheduled := unscheduled_of_all (by decide +kernel)
  obtain ⟨r, rho, hrun, hforwarding⟩ := run_forwards hconsistent hroles
  have hleft : (run nestedPhis).toOption.map (fun r => (r.graph.ids, r.graph.inputs 3))
      = some ([0, 3], [⟨0, 3, .value⟩]) := by decide +kernel
  rw [hrun] at hleft
  obtain ⟨hids, hinputs⟩ := Prod.mk.inj (Option.some.inj hleft)
  have hlive : ∀ id, r.graph.has id = true ↔ id = 0 ∨ id = 3 := by
    intro id
    rw [← mem_ids, hids]
    simp
  have hargument : rho 0 = 0 := hforwarding.fixes 0 ((hlive 0).2 (.inl rfl))
  have hgone : ∀ id, id ≠ 0 → id ≠ 3 → r.graph.has id = false := by
    intro id hzero hthree
    rw [← Bool.not_eq_true, hlive]
    exact not_or.2 ⟨hzero, hthree⟩
  have hfirst :=
    (hforwarding.removed 1 (by decide +kernel) (hgone 1 (by decide) (by decide))).sources 0 (by decide +kernel)
  have hsecond :=
    (hforwarding.removed 2 (by decide +kernel) (hgone 2 (by decide) (by decide))).sources 0 (by decide +kernel)
  exact ⟨hconsistent, hroles, r, rho, hrun, hforwarding, hids, hinputs, hfirst.symm.trans hargument,
    hsecond.symm.trans hargument⟩

/-- Of two phis that choose between copies of one argument the second passes control to the first. -/
def controllingPhis : Graph :=
  Graph.assemble [.arg, .phi, .phi] [⟨0, 1, .valueN 0⟩, ⟨2, 1, .control⟩, ⟨0, 2, .valueN 0⟩]

/-- The first phi goes, and with it the control that left the second, which goes too. -/
theorem run_controllingPhis_removes :
    controllingPhis.Consistent ∧ controllingPhis.Unscheduled ∧ controllingPhis.hasControlOutput 2 = true ∧
      controllingPhis.has 2 = true ∧ ∃ r, run controllingPhis = .ok r ∧ r.graph.has 2 = false := by
  have hconsistent : controllingPhis.Consistent := consistent_assemble (by decide)
  obtain ⟨r, hrun⟩ := exists_run hconsistent
  have hleft : (run controllingPhis).toOption.map (fun r => r.graph.has 2) = some false := by decide +kernel
  rw [hrun] at hleft
  exact ⟨hconsistent, unscheduled_of_all (by decide +kernel), by decide +kernel, by decide +kernel, r, hrun,
    Option.some.inj hleft⟩

end SeaOfNodes.Pass.NoChoice
