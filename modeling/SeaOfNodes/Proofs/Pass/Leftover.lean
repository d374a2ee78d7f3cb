/-
  SeaOfNodes.Proofs.Pass.Leftover

  What one run leaves for the next.  Phis are visited once, in ascending order, and a visit may
  take the choice from a phi that has been visited already: one that read the phi which goes, or
  from which control left for it.  Nothing else does, so a run leaves a phi without a choice only
  behind a higher one that went later.
-/
import SeaOfNodes.Proofs.Pass.Forwarding
import SeaOfNodes.Proofs.Pass.Settling

namespace SeaOfNodes.Pass.NoChoice

open SeaOfNodes.Graph

/-! ## Phis without a choice -/

/-- All that a phi reads is one other node, which does not read it, and control does not leave it. -/
structure HasNoChoice (g : Graph) (phi source : NodeId) : Prop where
  op : g.op phi = .phi
  other : source ≠ phi
  control : g.controlSuccessors phi = []
  reads : ∀ n, n ∈ g.valueInputs phi ↔ n = source
  unread : source ∉ g.consumers phi

theorem hasNoChoice_iff {g : Graph} (hg : g.Consistent) {phi source : NodeId} :
    HasNoChoice g phi source ↔ g.op phi = .phi ∧ g.soleChoice? phi = some source := by
  rw [soleChoice?_eq_some_iff, hg.hasControlOutput_eq_false_iff]
  exact ⟨fun ⟨hop, hother, hcontrol, hreads, hunread⟩ => ⟨hop, hother, hcontrol, hreads, hunread⟩,
    fun ⟨hop, hother, hcontrol, hreads, hunread⟩ => ⟨hop, hother, hcontrol, hreads, hunread⟩⟩

/-! ## A phi that has been visited -/

/-- A phi reads the same nodes and hands control to the same ones, and is still read by what it reads. -/
structure Unaffected (s s' : Graph) (phi : NodeId) : Prop where
  op : s'.op phi = s.op phi
  reads : ∀ n, n ∈ s'.valueInputs phi ↔ n ∈ s.valueInputs phi
  control : ∀ n, n ∈ s'.controlSuccessors phi ↔ n ∈ s.controlSuccessors phi
  circular : ∀ n ∈ s.valueInputs phi, n ∈ s.consumers phi → n ∈ s'.consumers phi

namespace Unaffected

theorem refl (s : Graph) (phi : NodeId) : Unaffected s s phi :=
  ⟨rfl, fun _ => Iff.rfl, fun _ => Iff.rfl, fun _ _ => id⟩

theorem trans {s s' s'' : Graph} {phi : NodeId} (h : Unaffected s s' phi) (h' : Unaffected s' s'' phi) :
    Unaffected s s'' phi where
  op := h'.op.trans h.op
  reads n := (h'.reads n).trans (h.reads n)
  control n := (h'.control n).trans (h.control n)
  circular n hn hreads := h'.circular n ((h.reads n).2 hn) (h.circular n hn hreads)

/-- So if it has no choice in the end it had none before. -/
theorem hasNoChoice {s s' : Graph} {phi source : NodeId} (h : Unaffected s s' phi)
    (hend : HasNoChoice s' phi source) : HasNoChoice s phi source where
  op := h.op.symm.trans hend.op
  other := hend.other
  control := by
    rw [List.eq_nil_iff_forall_not_mem]
    intro n hn
    have hstill := (h.control n).2 hn
    rw [hend.control] at hstill
    cases hstill
  reads n := (h.reads n).symm.trans (hend.reads n)
  unread hreads := hend.unread (h.circular source ((h.reads source).1 ((hend.reads source).2 rfl)) hreads)

end Unaffected

/-- A bypass takes the control edges at the phi and no others. -/
theorem control_of_visit {r r' : Change} {phi : NodeId} (h : visit r phi = .ok r') (hr : r.graph.Consistent) :
    r' = r ∨ ∀ a b, b ∈ r'.graph.controlSuccessors a ↔
      a ≠ phi ∧ b ≠ phi ∧ b ∈ r.graph.controlSuccessors a := by
  rcases visit_law h hr with hsame | ⟨source, -, -, hr', hlaw⟩
  · exact .inl hsame
  refine .inr fun a b => ?_
  have hone : ∀ role : Role, role.isControl = true → (0 < r'.graph.multiplicity ⟨a, b, role⟩ ↔
      (a ≠ phi ∧ b ≠ phi) ∧ 0 < r.graph.multiplicity ⟨a, b, role⟩) := by
    intro role hrole
    have hvalue : ¬ role.isValue = true := by simp [Role.isValue_of_isControl hrole]
    rw [hlaw]
    by_cases hends : a = phi ∨ b = phi
    · rw [if_pos hends]
      exact iff_of_false (Nat.lt_irrefl 0) fun hpos => (not_or.2 hpos.1) hends
    · rw [if_neg hends, if_neg fun hboth => hvalue hboth.2, Nat.add_zero]
      exact (and_iff_right (not_or.1 hends)).symm
  rw [hr'.mem_controlSuccessors, hr.mem_controlSuccessors, ← and_assoc, ← exists_and_left]
  refine exists_congr fun role => ?_
  rw [and_left_comm]
  exact and_congr_right (hone role)

/-- Bypassing another phi leaves a phi alone that does not read it and hands it no control. -/
theorem unaffected_of_visit {r r' : Change} {phi other : NodeId} (hr : r.graph.Consistent)
    (hvisit : visit r other = .ok r') (hne : phi ≠ other)
    (hapart : r'.graph.has other = false →
      other ∉ r.graph.valueInputs phi ∧ other ∉ r.graph.controlSuccessors phi) :
    Unaffected r.graph r'.graph phi := by
  rcases bypassed_of_visit hvisit hr with rfl | hbypass
  · exact .refl r'.graph phi
  rcases control_of_visit hvisit hr with rfl | hcontrolLaw
  · exact .refl r'.graph phi
  have hgone := hbypass.lacks.has_eq_false
  obtain ⟨hreads, hcontrol⟩ := hapart hgone
  have hunread : phi ∉ r.graph.consumers other := fun hmem => hreads (hr.mem_valueInputs.2 hmem)
  refine ⟨hbypass.lacks.op phi hne, fun n => ?_, fun n => ?_, fun n hn hconsumes => ?_⟩
  · by_cases hn : n = other
    · -- Nothing reads the phi that is gone.
      subst hn
      refine iff_of_false (fun hmem => ?_) hreads
      rw [hbypass.consistent.has_of_mem_valueInputs hmem] at hgone
      cases hgone
    · rw [hbypass.consistent.mem_valueInputs, hr.mem_valueInputs, hbypass.consumers n phi hn]
      simp [hne, hunread]
  · -- The only control edges that go are those at the phi that goes.
    rw [hcontrolLaw]
    refine ⟨fun hmem => hmem.2.2, fun hmem => ⟨hne, ?_, hmem⟩⟩
    rintro rfl
    exact hcontrol hmem
  · -- What is read stays, for it is not the phi that goes, and it reads at least what it read.
    rw [hbypass.consumers phi n hne]
    refine ⟨?_, .inl hconsumes⟩
    rintro rfl
    exact hreads hn

/-- What is visited behind a phi leaves it alone if all that it reads and hands control to stays. -/
theorem unaffected_of_visits {phi : NodeId} {back : List NodeId} (hback : phi ∉ back) {r r' : Change}
    (hr : r.graph.Consistent) (hvisits : back.foldlM visit r = .ok r')
    (hstays : ∀ n, n ∈ r.graph.valueInputs phi ∨ n ∈ r.graph.controlSuccessors phi → r'.graph.has n = true) :
    Unaffected r.graph r'.graph phi := by
  induction back generalizing r with
  | nil =>
      rw [List.foldlM_nil, pure_eq_ok] at hvisits
      rw [hvisits]
      exact .refl r'.graph phi
  | cons other rest ih =>
      rw [List.foldlM_cons] at hvisits
      obtain ⟨next, hnext, hrest⟩ := bind_eq_ok.1 hvisits
      rw [List.mem_cons, not_or] at hback
      have hconsistent := consistent_visit hnext hr
      have hone : Unaffected r.graph next.graph phi := by
        refine unaffected_of_visit hr hnext hback.1 fun hgone => ?_
        -- What is gone after the visit is gone in the end.
        have hlost : ¬ r'.graph.has other = true := by
          intro hlive
          rw [(thins_visits hconsistent hrest).has other hlive] at hgone
          cases hgone
        exact ⟨fun hmem => hlost (hstays other (.inl hmem)), fun hmem => hlost (hstays other (.inr hmem))⟩
      refine hone.trans (ih hback.2 hconsistent hrest fun n hn => hstays n ?_)
      rwa [hone.reads, hone.control] at hn

/-! ## The visit of a phi -/

/-- The state of a run when it comes to a phi: the lower ones have been visited. -/
def cameTo (g : Graph) (phi : NodeId) : Except Misuse Change :=
  ((g.find .phi).filter (· < phi)).foldlM visit ⟨g, 0⟩

/-- A run visits the lower phis, the phi and the higher ones. -/
theorem run_split {g : Graph} {r : Change} (h : run g = .ok r) {phi : NodeId} (hphi : g.op phi = .phi) :
    ∃ (before after : Change) (back : List NodeId), cameTo g phi = .ok before ∧ visit before phi = .ok after ∧
      back.foldlM visit after = .ok r ∧ ∀ other ∈ back, phi < other ∧ g.op other = .phi := by
  obtain ⟨front, back, hphis⟩ := List.append_of_mem ((mem_find_iff (by decide)).2 hphi)
  have hascending : (front ++ phi :: back).Pairwise (· < ·) := by
    rw [← hphis]
    exact g.pairwise_lt_ids.filter _
  obtain ⟨-, hbehind, hlower⟩ := List.pairwise_append.1 hascending
  obtain ⟨hhigher, -⟩ := List.pairwise_cons.1 hbehind
  -- Phis are found in ascending order, so those in front of this one are the lower ones.
  have hfront : (g.find .phi).filter (· < phi) = front := by
    rw [hphis, List.filter_append, List.filter_cons_of_neg (by simp), List.filter_eq_self.2,
      List.filter_eq_nil_iff.2, List.append_nil]
    · intro other hother
      have hlt : ¬ other < phi := Int.not_lt.2 (Int.le_of_lt (hhigher other hother))
      simpa using hlt
    · intro other hother
      exact decide_eq_true (hlower other hother phi List.mem_cons_self)
  rw [run, hphis, List.foldlM_append] at h
  obtain ⟨before, hbefore, h⟩ := bind_eq_ok.1 h
  rw [List.foldlM_cons] at h
  obtain ⟨after, hafter, hrest⟩ := bind_eq_ok.1 h
  refine ⟨before, after, back, ?_, hafter, hrest, fun other hother => ⟨hhigher other hother, ?_⟩⟩
  · rw [cameTo, hfront]
    exact hbefore
  · rw [← mem_find_iff (by decide), hphis]
    exact List.mem_append_right front (List.mem_cons_of_mem phi hother)

/-- A phi was visited while it read a higher phi or control left it for one, and that one went later. -/
def LostChoice (g g' : Graph) (phi : NodeId) : Prop :=
  ∃ before higher, cameTo g phi = .ok before ∧ phi < higher ∧ g.op higher = .phi ∧ before.graph.has higher = true ∧
    g'.has higher = false ∧
    (higher ∈ before.graph.valueInputs phi ∨ higher ∈ before.graph.controlSuccessors phi)

/-- A phi that is left without a choice had one when it was visited, and has lost it since. -/
theorem lostChoice_of_hasNoChoice {g : Graph} (hg : g.Consistent) {r : Change} (h : run g = .ok r)
    {phi source : NodeId} (hleft : HasNoChoice r.graph phi source) : LostChoice g r.graph phi := by
  have hphi := (thins_run hg h).1.op_eq (by decide) hleft.op
  obtain ⟨before, after, back, hcame, hvisit, hrest, hback⟩ := run_split h hphi
  have hbefore : before.graph.Consistent := ((Visited.refl hg).foldlM hcame).consistent
  have hafter := consistent_visit hvisit hbefore
  have hthins := thins_visits hafter hrest
  have hlive : r.graph.has phi = true := has_of_op_ne_invalid (by rw [hleft.op]; decide)
  -- The phi is still there, so its own visit changed nothing.
  obtain rfl : after = before := by
    rcases bypassed_of_visit hvisit hbefore with hsame | hbypass
    · exact hsame
    · exact absurd rfl ((hbypass.lacks.has phi).1 (hthins.has phi hlive)).2
  -- A visit that bypasses a phi counts it, so the phi had a choice.
  have hchoice : after.graph.soleChoice? phi = none := by
    rcases visit_eq_ok hvisit with ⟨hnone, -⟩ | ⟨_, _, -, -, -, hcount⟩
    · exact hnone
    · exact absurd hcount.symm (Nat.succ_ne_self _)
  by_contra hnot
  have hstays : ∀ n, n ∈ after.graph.valueInputs phi ∨ n ∈ after.graph.controlSuccessors phi →
      r.graph.has n = true := by
    intro n hn
    by_contra hgone
    have hthere : after.graph.has n = true := by
      rcases hn with hn | hn
      · exact hbefore.has_of_mem_valueInputs hn
      · obtain ⟨role, -, hpos⟩ := hbefore.mem_controlSuccessors.1 hn
        exact (hbefore.has_of_multiplicity hpos).2
    -- It was there when the run came to the phi, so it went in one of the visits behind.
    have hlater : n ∈ back := by
      by_contra hnever
      have hstart : Visited after.graph [] after := ⟨hbefore, fun _ hid _ => hid⟩
      exact hgone ((hstart.foldlM hrest).live n hthere hnever)
    obtain ⟨hhigher, hop⟩ := hback n hlater
    exact hnot ⟨after, n, hcame, hhigher, hop, hthere, by simpa using hgone, hn⟩
  have hbehind : phi ∉ back := fun hmem => Int.lt_irrefl phi (hback phi hmem).1
  have hhad := (unaffected_of_visits hbehind hbefore hrest hstays).hasNoChoice hleft
  rw [((hasNoChoice_iff hbefore).1 hhad).2] at hchoice
  cases hchoice

/-! ## One run -/

/-- No phi of a graph reads a higher one, and none hands control to a higher one.  It may read itself. -/
def PhisAscend (g : Graph) : Prop :=
  ∀ phi other, g.op phi = .phi → g.op other = .phi →
    other ∈ g.valueInputs phi ∨ other ∈ g.controlSuccessors phi → other ≤ phi

/-- Then a phi leads to no lower one, whatever phis are gone. -/
theorem PhisAscend.le_of_leads {g : Graph} (h : PhisAscend g) (hg : g.Consistent) {live : NodeId → Bool}
    (hgone : ∀ id, g.has id = true → live id = false → g.op id = .phi) {n m : NodeId} (hleads : Leads g live n m)
    (hn : g.op n = .phi) (hm : g.op m = .phi) : n ≤ m := by
  induction hleads with
  | @reads n m hreads _ => exact h m n hm hn (.inl (hg.mem_valueInputs.2 hreads))
  | @through n between m hreads hlost _ ih =>
      obtain ⟨role, -, hpos⟩ := hg.mem_consumers.1 hreads
      have hbetween := hgone between (hg.has_of_multiplicity hpos).2 hlost
      exact Int.le_trans (h between n hbetween hn (.inl (hg.mem_valueInputs.2 hreads))) (ih hbetween hm)

/-- Bypassing phis makes no control edge. -/
theorem mem_controlSuccessors_of_visits {g : Graph} (hg : g.Consistent) {ids : List NodeId} {r : Change}
    (h : ids.foldlM visit ⟨g, 0⟩ = .ok r) {a b : NodeId} (hb : b ∈ r.graph.controlSuccessors a) :
    b ∈ g.controlSuccessors a := by
  have hall : r.graph.Consistent ∧ ∀ a b, b ∈ r.graph.controlSuccessors a → b ∈ g.controlSuccessors a := by
    refine foldlM_keeps (fun s : Change => s.graph.Consistent ∧
      ∀ a b, b ∈ s.graph.controlSuccessors a → b ∈ g.controlSuccessors a) ?_ h ⟨hg, fun _ _ => id⟩
    rintro before phi after ⟨hbefore, hedges⟩ hvisit
    rcases control_of_visit hvisit hbefore with rfl | hcontrol
    · exact ⟨hbefore, hedges⟩
    · exact ⟨consistent_visit hvisit hbefore, fun a b hb => hedges a b ((hcontrol a b).1 hb).2.2⟩
  exact hall.2 a b hb

/-- Where phis ascend no phi is visited too early. -/
theorem PhisAscend.not_lostChoice {g g' : Graph} (h : PhisAscend g) (hg : g.Consistent) {phi : NodeId}
    (hphi : g.op phi = .phi) : ¬ LostChoice g g' phi := by
  rintro ⟨before, higher, hcame, hlt, hop, hlive, -, hreads | hcontrol⟩
  · have hforwards : Forwards g before :=
      foldlM_keeps (Forwards g) (fun _ _ _ hbefore hvisit => hbefore.visit hvisit) hcame (.refl hg 0)
    have hgone : ∀ id, g.has id = true → before.graph.has id = false → g.op id = .phi := by
      intro id hid hlost
      by_contra hother
      have hnever : id ∉ (g.find .phi).filter (· < phi) := fun hmem =>
        hother ((mem_find_iff (by decide)).1 (List.mem_of_mem_filter hmem))
      rw [((Visited.refl hg).foldlM hcame).live id hid hnever] at hlost
      cases hlost
    -- The higher phi leads to this one through phis that are gone.
    have hleads := (hforwards.consumers higher hlive phi).1 (hforwards.consistent.mem_valueInputs.1 hreads)
    exact Int.not_lt.2 (h.le_of_leads hg hgone hleads hop hphi) hlt
  · have hnext := mem_controlSuccessors_of_visits hg hcame hcontrol
    exact Int.not_lt.2 (h phi higher hphi hop (.inr hnext)) hlt

/-- As a pass of a list a run ends as it does by itself. -/
theorem passRun_eq_ok {g : Graph} {r : Change} : Pass.run .noChoicePhis g = .ok r ↔ run g = .ok r := mapError_eq_ok

/-- A run succeeds, and a second one finds nothing to do and says so exactly if no phi is left without a
    choice.  One is left so only if it was visited while it read a higher phi or handed control to one that
    went later; so none is where no phi reads a higher one or hands control to one. -/
theorem run_leftover {g : Graph} (hg : g.Consistent) :
    ∃ r, Pass.run .noChoicePhis g = .ok r ∧
      ((∀ phi source, ¬ HasNoChoice r.graph phi source) ↔
        ∃ again, Pass.run .noChoicePhis r.graph = .ok again ∧ again.modified = false ∧ again.graph = r.graph) ∧
      (∀ phi source, HasNoChoice r.graph phi source → LostChoice g r.graph phi) ∧
      (PhisAscend g → ∀ phi source, ¬ HasNoChoice r.graph phi source) := by
  obtain ⟨r, hrun⟩ := exists_run hg
  have hr := consistent_run hrun hg
  have hlost : ∀ phi source, HasNoChoice r.graph phi source → LostChoice g r.graph phi := fun phi source hleft =>
    lostChoice_of_hasNoChoice hg hrun hleft
  refine ⟨r, passRun_eq_ok.2 hrun, ?_, hlost, fun hascend phi source hleft => ?_⟩
  · have hidle : (∀ phi source, ¬ HasNoChoice r.graph phi source) ↔ Idle .noChoicePhis r.graph := by
      simp only [idle_noChoicePhis_iff, hasNoChoice_iff hr, not_and, Option.eq_none_iff_forall_ne_some, ne_eq]
      exact forall_congr' fun phi => forall_comm
    rw [hidle]
    constructor
    · intro hquiet
      exact ⟨⟨r.graph, 0⟩, hquiet, rfl, rfl⟩
    · rintro ⟨⟨graph, count⟩, hagain, hcount, rfl⟩
      have hzero : count = 0 := by simpa [Change.modified] using hcount
      rw [Idle, hagain, hzero]
  · exact hascend.not_lostChoice hg ((thins_run hg hrun).1.op_eq (by decide) hleft.op) (hlost phi source hleft)

/-- A phi of a loop reads an argument and itself, and a second phi chooses between copies of it. -/
def loopedPhis : Graph :=
  .assemble [.arg, .phi, .phi, .trace] [⟨0, 1, .valueN 0⟩, ⟨1, 1, .valueN 1⟩, ⟨1, 2, .valueN 0⟩,
    ⟨1, 2, .valueN 1⟩, ⟨2, 3, .value⟩]

/-- One run removes the second phi, and nothing is left to do.  The first still chooses. -/
theorem run_loopedPhis_settles :
    loopedPhis.Consistent ∧ PhisAscend loopedPhis ∧ ∃ r, Pass.run .noChoicePhis loopedPhis = .ok r ∧
      r.graph.ids = [0, 1, 3] ∧
      ∃ again, Pass.run .noChoicePhis r.graph = .ok again ∧ again.modified = false ∧ again.graph = r.graph := by
  have hconsistent : loopedPhis.Consistent := consistent_assemble (by decide)
  have hascend : PhisAscend loopedPhis := by
    have hall : ∀ phi ∈ loopedPhis.find .phi, ∀ other ∈ loopedPhis.find .phi,
        other ∈ loopedPhis.valueInputs phi ∨ other ∈ loopedPhis.controlSuccessors phi → other ≤ phi := by
      decide +kernel
    intro phi other hphi hother
    exact hall phi ((mem_find_iff (by decide)).2 hphi) other ((mem_find_iff (by decide)).2 hother)
  obtain ⟨r, hrun, hsecond, -, hsettled⟩ := run_leftover hconsistent
  have hleft : (Pass.run .noChoicePhis loopedPhis).toOption.map (fun r => r.graph.ids) = some [0, 1, 3] := by
    decide +kernel
  rw [hrun] at hleft
  exact ⟨hconsistent, hascend, r, hrun, Option.some.inj hleft, hsecond.1 (hsettled hascend)⟩

/-- Of the chained phis the first is visited while it reads the second, and is left without a choice when
    that one goes: a second run removes it. -/
theorem run_chainedPhis_leaves :
    chainedPhis.Consistent ∧ ∃ r again, Pass.run .noChoicePhis chainedPhis = .ok r ∧ HasNoChoice r.graph 1 0 ∧
      Pass.run .noChoicePhis r.graph = .ok again ∧ again.modified = true ∧ again.graph.has 1 = false := by
  have hconsistent : chainedPhis.Consistent := consistent_assemble (by decide)
  obtain ⟨r, hrun⟩ := exists_run hconsistent
  have hr := consistent_run hrun hconsistent
  obtain ⟨again, hagain⟩ := exists_run hr
  have hfirst : (run chainedPhis).toOption.map (fun r => (r.graph.op 1, r.graph.soleChoice? 1))
      = some (.phi, some 0) := by decide +kernel
  have hsecond : ((run chainedPhis).toOption.bind fun r => (run r.graph).toOption.map
      fun again => (again.modified, again.graph.has 1)) = some (true, false) := by decide +kernel
  rw [hrun] at hfirst hsecond
  obtain ⟨hop, hchoice⟩ := Prod.mk.inj (Option.some.inj hfirst)
  rw [Except.toOption, Option.bind_some, hagain] at hsecond
  obtain ⟨hmodified, hgone⟩ := Prod.mk.inj (Option.some.inj hsecond)
  exact ⟨hconsistent, r, again, passRun_eq_ok.2 hrun, (hasNoChoice_iff hr).2 ⟨hop, hchoice⟩,
    passRun_eq_ok.2 hagain, hmodified, hgone⟩

end SeaOfNodes.Pass.NoChoice
