/-
  SeaOfNodes.Proofs.Pass.Dangling

  Floating nodes that nobody reads.  Sweeping dead code leaves none.  Bypassing the
  phis without a choice may: a phi that control reaches is no dead code, so one that
  nobody reads is bypassed like any other, and its source then has one reader less.
  Exactly the readers that a node has through bypassed phis are left to it.
-/
import SeaOfNodes.Pass.DeadCode
import SeaOfNodes.Pass.NoChoice
import SeaOfNodes.Proofs.Graph.Readers
import SeaOfNodes.Proofs.Pass.Consistent

namespace SeaOfNodes.Graph

/-- Without schedule edges a floating node that is not dead is read. -/
theorem NoneDangles.of_deadNodes {g : Graph} (hg : g.Consistent) (hroles : g.Unscheduled)
    (hdead : g.deadNodes = []) : g.NoneDangles := by
  intro id hid hfloating hnone
  have hnotDead := List.filter_eq_nil_iff.1 hdead id (mem_ids.2 hid)
  have houtputs : g.outputs id ≠ [] := by simpa [hfloating] using hnotDead
  obtain ⟨e, he⟩ := List.exists_mem_of_ne_nil _ houtputs
  have hsource := hg.source_eq id e he
  subst hsource
  rcases hroles e (multiplicity_pos.2 he) with hcontrol | hvalue
  · have hfixed : g.isFixed e.source = true :=
      hg.isFixed_iff.2 (.inr (.inr ⟨e.target, e.role, hcontrol, multiplicity_pos.2 he⟩))
    rw [isFloating, hfixed] at hfloating
    cases hfloating
  · have hmem : e.target ∈ g.consumers e.source :=
      hg.mem_consumers.2 ⟨e.role, hvalue, multiplicity_pos.2 he⟩
    rw [hnone] at hmem
    cases hmem

end SeaOfNodes.Graph

namespace SeaOfNodes.Pass

open SeaOfNodes.Graph

/-! ## Sweeping dead code -/

namespace DeadCode

/-- Removing the nodes of a list makes the graph smaller by each of them. -/
theorem size_foldlM_remove {ids : List NodeId} {g g' : Graph} (h : ids.foldlM Graph.remove g = .ok g')
    (hg : g.Consistent) : g'.size + ids.length = g.size := by
  induction ids generalizing g with
  | nil =>
      rw [List.foldlM_nil, pure_eq_ok] at h
      subst h
      rfl
  | cons id rest ih =>
      rw [List.foldlM_cons] at h
      obtain ⟨next, hnext, hrest⟩ := bind_eq_ok.1 h
      have hone := (hg.remove_law hnext).1.size_eq
      have hothers := ih hrest (hg.remove hnext)
      rw [List.length_cons]
      omega

/-- With as many rounds as nodes the sweep ends for want of dead ones. -/
theorem deadNodes_sweep {rounds removed : Nat} {g : Graph} {r : Change} (h : sweep rounds g removed = .ok r)
    (hg : g.Consistent) (hrounds : g.size ≤ rounds) : r.graph.deadNodes = [] := by
  induction rounds generalizing g removed with
  | zero =>
      cases h
      have hids : g.ids = [] := by
        rw [← List.length_eq_zero_iff, ← size_eq_length_ids]
        exact Nat.le_zero.1 hrounds
      rw [deadNodes, hids, List.filter_nil]
  | succ rounds ih =>
      rw [sweep] at h
      split at h
      · rename_i hdead
        cases h
        exact hdead
      · rename_i dead hdead
        obtain ⟨swept, hswept, hrest⟩ := bind_eq_ok.1 h
        -- A round that is not the last takes a node, so the rounds outlast the dead nodes.
        have hlen := size_foldlM_remove hswept hg
        have hpos : 0 < g.deadNodes.length := List.length_pos_of_ne_nil hdead
        refine ih hrest (foldlM_keeps Consistent (fun _ _ _ hb hremove => hb.remove hremove) hswept hg) ?_
        omega

theorem unscheduled_remove {g g' : Graph} {id : NodeId} (hg : g.Consistent) (h : g.remove id = .ok g')
    (hroles : g.Unscheduled) : g'.Unscheduled := by
  intro e he
  apply hroles
  rw [(hg.remove_law h).2] at he
  split at he
  · exact absurd he (Nat.lt_irrefl 0)
  · exact he

theorem unscheduled_sweep {rounds removed : Nat} {g : Graph} {r : Change} (h : sweep rounds g removed = .ok r)
    (hg : g.Consistent) (hroles : g.Unscheduled) : r.graph.Unscheduled := by
  have hround : ∀ {s swept : Graph}, s.Consistent ∧ s.Unscheduled →
      s.deadNodes.foldlM Graph.remove s = .ok swept → swept.Consistent ∧ swept.Unscheduled := by
    intro s swept hs hswept
    refine foldlM_keeps (fun s : Graph => s.Consistent ∧ s.Unscheduled) ?_ hswept hs
    rintro before id after ⟨hbefore, hbeforeRoles⟩ hremove
    exact ⟨hbefore.remove hremove, unscheduled_remove hbefore hremove hbeforeRoles⟩
  exact (sweep_keeps hround h ⟨hg, hroles⟩).2

/-- Sweeping leaves no floating node without a reader. -/
theorem noneDangles_run {g : Graph} {r : Change} (h : run g = .ok r) (hg : g.Consistent)
    (hroles : g.Unscheduled) : r.graph.NoneDangles :=
  .of_deadNodes (consistent_sweep h hg) (unscheduled_sweep h hg hroles) (deadNodes_sweep h hg (Nat.le_refl _))

end DeadCode

/-! ## Bypassing phis -/

/-- A node is read by another that is still live, itself or through nodes that are
    not. -/
inductive Leads (g : Graph) (live : NodeId → Bool) : NodeId → NodeId → Prop
  | reads {n m : NodeId} (hreads : m ∈ g.consumers n) (hlive : live m = true) : Leads g live n m
  | through {n phi m : NodeId} (hreads : phi ∈ g.consumers n) (hgone : live phi = false)
      (hrest : Leads g live phi m) : Leads g live n m

theorem Leads.mono {g : Graph} {live live' : NodeId → Bool} {n m : NodeId} (h : Leads g live n m)
    (hgone : ∀ x, live x = false → live' x = false) (hm : live m = true → live' m = true) :
    Leads g live' n m := by
  induction h with
  | reads hreads hlive => exact .reads hreads (hm hlive)
  | through hreads hother _ ih => exact .through hreads (hgone _ hother) (ih hm)

/-- What leads to a node that goes leads on to whatever that one led to. -/
theorem Leads.trans {g : Graph} {live live' : NodeId → Bool} {n phi m : NodeId} (h : Leads g live n phi)
    (hgone : ∀ x, live x = false → live' x = false) (hphi : live' phi = false)
    (hrest : Leads g live' phi m) : Leads g live' n m := by
  induction h with
  | reads hreads _ => exact .through hreads hphi hrest
  | through hreads hother _ ih => exact .through hreads (hgone _ hother) (ih hphi hrest)

namespace NoChoice

/-- What a phi without a choice is like. -/
theorem soleChoice?_eq_some {g : Graph} {phi source : NodeId} (h : g.soleChoice? phi = some source) :
    g.hasControlOutput phi = false ∧ source ≠ phi ∧ (∀ n, n ∈ g.valueInputs phi ↔ n = source) := by
  unfold soleChoice? at h
  split at h
  · cases h
  · rename_i first others hinputs
    split at h
    · cases h
    · rename_i hcontrol
      split at h
      · cases h
      · rename_i hothers
        split at h
        · cases h
        · rename_i hself
          split at h
          · cases h
          · cases h
            refine ⟨by simpa using hcontrol, hself, fun n => ?_⟩
            rw [hinputs, List.mem_cons]
            refine ⟨fun hn => hn.elim id fun hn => ?_, .inl⟩
            simp only [List.any_eq_true, not_exists, not_and] at hothers
            simpa using hothers n hn

/-- Bypassing a phi hands its readers on to the node that it read. -/
structure Bypassed (g g' : Graph) (phi : NodeId) : Prop where
  lacks : Lacks g g' phi
  consistent : g'.Consistent
  roles : ∀ e, 0 < g'.multiplicity e → ∃ x, 0 < g.multiplicity x ∧ x.role = e.role
  consumers : ∀ n m, n ≠ phi → (m ∈ g'.consumers n ↔
    m ≠ phi ∧ (m ∈ g.consumers n ∨ (phi ∈ g.consumers n ∧ m ∈ g.consumers phi)))

/-- A visit leaves a phi that has a choice.  Of one that has none it takes the edges, and its
    source gets those to the readers. -/
theorem visit_law {r r' : Change} {phi : NodeId} (h : visit r phi = .ok r') (hr : r.graph.Consistent) :
    r' = r ∨ ∃ source, r.graph.soleChoice? phi = some source ∧ Lacks r.graph r'.graph phi ∧
      r'.graph.Consistent ∧ ∀ x, r'.graph.multiplicity x =
        if x.source = phi ∨ x.target = phi then 0
        else r.graph.multiplicity x +
          if x.source = source ∧ x.role.isValue = true then r.graph.multiplicity ⟨phi, x.target, x.role⟩ else 0 := by
  rcases visit_eq_ok h with ⟨-, hsame⟩ | ⟨source, forwarded, hchoice, hforwarded, hremoved, -⟩
  · exact .inl hsame
  · obtain ⟨-, -, -, hnodes, hforward⟩ := hr.replaceUses_law hforwarded
    have hconsistent := hr.replaceUses hforwarded
    obtain ⟨hlacks, hremove⟩ := hconsistent.remove_law hremoved
    refine .inr ⟨source, hchoice, hnodes.lacks hlacks, hconsistent.remove hremoved, fun x => ?_⟩
    rw [hremove]
    by_cases hends : x.source = phi ∨ x.target = phi
    · rw [if_pos hends, if_pos hends]
    · rw [if_neg hends, if_neg hends, hforward, if_neg (not_or.1 hends).1]

theorem bypassed_of_visit {r r' : Change} {phi : NodeId} (h : visit r phi = .ok r') (hr : r.graph.Consistent) :
    r' = r ∨ Bypassed r.graph r'.graph phi := by
  rcases visit_law h hr with hsame | ⟨source, hchoice, hlacks, hconsistent, hlaw⟩
  · exact .inl hsame
  · obtain ⟨-, -, hinputs⟩ := soleChoice?_eq_some hchoice
    refine .inr ⟨hlacks, hconsistent, fun e he => ?_, fun n m hn => ?_⟩
    · rw [hlaw] at he
      split at he
      · exact absurd he (Nat.lt_irrefl 0)
      · split at he
        · rcases Nat.add_pos_iff_pos_or_pos.1 he with he | he
          · exact ⟨e, he, rfl⟩
          · exact ⟨_, he, rfl⟩
        · exact ⟨e, he, rfl⟩
    -- Only the source is read by the phi, and only it gets what the phi handed on.
    have hphi : phi ∈ r.graph.consumers n ↔ n = source := by
      rw [← hr.mem_valueInputs]
      exact hinputs n
    rw [hphi, hconsistent.mem_consumers, hr.mem_consumers, hr.mem_consumers]
    simp only [hlaw, hn, false_or]
    by_cases hm : m = phi
    · simp [hm]
    · simp only [hm, if_false, ne_eq, not_false_eq_true, true_and]
      constructor
      · rintro ⟨role, hvalue, hpos⟩
        by_cases hnsource : n = source
        · rw [if_pos ⟨hnsource, hvalue⟩] at hpos
          rcases Nat.eq_zero_or_pos (r.graph.multiplicity ⟨n, m, role⟩) with hzero | hdirect
          · rw [hzero, Nat.zero_add] at hpos
            exact .inr ⟨hnsource, role, hvalue, hpos⟩
          · exact .inl ⟨role, hvalue, hdirect⟩
        · rw [if_neg fun hboth => hnsource hboth.1, Nat.add_zero] at hpos
          exact .inl ⟨role, hvalue, hpos⟩
      · rintro (⟨role, hvalue, hpos⟩ | ⟨hnsource, role, hvalue, hpos⟩)
        · exact ⟨role, hvalue, by omega⟩
        · refine ⟨role, hvalue, ?_⟩
          rw [if_pos ⟨hnsource, hvalue⟩]
          omega

/-- Where a phi goes, what led to it leads to its readers. -/
theorem leads_iff_of_gone {d : Graph} {live live' : NodeId → Bool} {phi : NodeId} (hphi : live phi = true)
    (hlive : ∀ x, live' x = true ↔ live x = true ∧ x ≠ phi) {n m : NodeId} :
    Leads d live' n m ↔ m ≠ phi ∧ (Leads d live n m ∨ (Leads d live n phi ∧ Leads d live phi m)) := by
  have hgone : ∀ x, live' x = false ↔ live x = false ∨ x = phi := by
    intro x
    rw [← Bool.not_eq_true, hlive, not_and_or, Bool.not_eq_true, not_not]
  have hmono : ∀ x, live x = false → live' x = false := fun x hx => (hgone x).2 (.inl hx)
  constructor
  · intro h
    -- The way to the reader is cut where it passes the phi for the last time.
    induction h with
    | reads hreads hm =>
        obtain ⟨hm, hne⟩ := (hlive _).1 hm
        exact ⟨hne, .inl (.reads hreads hm)⟩
    | @through n other m hreads hother _ ih =>
        obtain ⟨hne, ih⟩ := ih
        refine ⟨hne, ?_⟩
        rcases (hgone other).1 hother with hother | rfl
        · rcases ih with ih | ⟨hto, hfrom⟩
          · exact .inl (.through hreads hother ih)
          · exact .inr ⟨.through hreads hother hto, hfrom⟩
        · rcases ih with ih | ⟨-, ih⟩
          · exact .inr ⟨.reads hreads hphi, ih⟩
          · exact .inr ⟨.reads hreads hphi, ih⟩
  · rintro ⟨hne, hdirect | ⟨hto, hfrom⟩⟩
    · exact hdirect.mono hmono fun hm => (hlive m).2 ⟨hm, hne⟩
    · have hend : Leads d live' phi m := hfrom.mono hmono fun hm => (hlive m).2 ⟨hm, hne⟩
      exact hto.trans hmono ((hgone phi).2 (.inr rfl)) hend

/-- What holds while phis of a graph are bypassed: every node that is left has the
    readers that it leads to. -/
structure Forwards (d : Graph) (r : Change) : Prop where
  consistent : r.graph.Consistent
  consumers : ∀ n, r.graph.has n = true → ∀ m, m ∈ r.graph.consumers n ↔ Leads d r.graph.has n m

theorem Forwards.refl {d : Graph} (hd : d.Consistent) (count : Nat) : Forwards d ⟨d, count⟩ where
  consistent := hd
  consumers n _ m := by
    have hlive : ∀ {a b : NodeId}, b ∈ d.consumers a → d.has b = true := by
      intro a b hb
      obtain ⟨role, -, hpos⟩ := hd.mem_consumers.1 hb
      exact (hd.has_of_multiplicity hpos).2
    constructor
    · intro hm
      exact .reads hm (hlive hm)
    · intro h
      cases h with
      | reads hm _ => exact hm
      | through hreads hgone _ =>
          rw [hlive hreads] at hgone
          cases hgone

theorem Forwards.visit {d : Graph} {r r' : Change} {phi : NodeId} (h : Forwards d r)
    (hvisit : visit r phi = .ok r') : Forwards d r' := by
  rcases bypassed_of_visit hvisit h.consistent with rfl | hbypass
  · exact h
  · refine ⟨hbypass.consistent, fun n hn m => ?_⟩
    obtain ⟨hn, hne⟩ := (hbypass.lacks.has n).1 hn
    rw [hbypass.consumers n m hne, leads_iff_of_gone hbypass.lacks.has_id hbypass.lacks.has,
      h.consumers n hn, h.consumers n hn, h.consumers phi hbypass.lacks.has_id]

/-- After a run a node has exactly the readers that it leads to through the phis that
    are gone. -/
theorem forwards_run {g : Graph} {r : Change} (h : run g = .ok r) (hg : g.Consistent) : Forwards g r :=
  foldlM_keeps (Forwards g) (fun _ _ _ hbefore hvisit => hbefore.visit hvisit) h (.refl hg 0)

theorem noneDangles_iff {g : Graph} {r : Change} (h : run g = .ok r) (hg : g.Consistent) :
    r.graph.NoneDangles ↔ ∀ n, r.graph.has n = true → r.graph.isFloating n = true →
      ∃ m, Leads g r.graph.has n m := by
  have hforwards := forwards_run h hg
  refine forall_congr' fun n => imp_congr_right fun hn => imp_congr_right fun _ => ?_
  rw [← List.isEmpty_eq_false_iff, List.isEmpty_eq_false_iff_exists_mem]
  exact exists_congr fun m => hforwards.consumers n hn m

end NoChoice

end SeaOfNodes.Pass
