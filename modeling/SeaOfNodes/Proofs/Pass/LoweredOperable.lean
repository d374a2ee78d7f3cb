/-
  SeaOfNodes.Proofs.Pass.LoweredOperable

  Lowering leaves branches and sends what their instructions need.  It gives no node more
  operands or fewer, and what it adds to control are plain edges, so each outcome of a
  branch is still followed by one edge, if to a node that has been replaced.
-/
import SeaOfNodes.Proofs.Graph.UseSites
import SeaOfNodes.Proofs.Listing.Success
import SeaOfNodes.Proofs.Pass.LoweredOperands

namespace SeaOfNodes.Graph

/-! ## Sole edges -/

/-- One edge leaves a node under a name. -/
def SoleOutput (g : Graph) (id : NodeId) (name : Role.Name) : Prop :=
  ∃ e : Edge, e.source = id ∧ e.role.name = name ∧ g.multiplicity e = 1 ∧
    ∀ x : Edge, 0 < g.multiplicity x → x.source = id → x.role.name = name → x = e

theorem length_outputsNamed_eq_one_iff {g : Graph} (hg : g.Consistent) {id : NodeId} {name : Role.Name} :
    (g.outputsNamed id name).length = 1 ↔ g.SoleOutput id name := by
  have hcount : ∀ x : Edge, x.source = id → x.role.name = name → (g.outputsNamed id name).count x = g.multiplicity x := by
    rintro x rfl hname
    exact List.count_filter (by simpa using hname)
  constructor
  · intro hone
    obtain ⟨e, he⟩ := List.length_eq_one_iff.1 hone
    obtain ⟨hmem, hname⟩ := List.mem_filter.1 (he ▸ List.mem_singleton_self e : e ∈ g.outputsNamed id name)
    have hsource := hg.source_eq id e hmem
    have hname := of_decide_eq_true hname
    refine ⟨e, hsource, hname, ?_, fun x hx hxsource hxname => ?_⟩
    · rw [← hcount e hsource hname, he, List.count_singleton_self]
    · rw [← hcount x hxsource hxname, he, List.count_pos_iff] at hx
      exact List.mem_singleton.1 hx
  · rintro ⟨e, hsource, hname, hone, hsole⟩
    have hall : ∀ x ∈ g.outputsNamed id name, x = e := by
      intro x hx
      obtain ⟨hmem, hxname⟩ := List.mem_filter.1 hx
      have hxsource := hg.source_eq id x hmem
      exact hsole x (multiplicity_pos.2 (hxsource ▸ hmem)) hxsource (of_decide_eq_true hxname)
    rw [← hcount e hsource hname, List.eq_replicate_of_mem hall, List.count_replicate_self] at hone
    exact hone

theorem SoleOutput.of_multiplicity {g g' : Graph} {id : NodeId} {name : Role.Name} (h : g.SoleOutput id name)
    (hsame : ∀ x : Edge, x.role.name = name → g'.multiplicity x = g.multiplicity x) : g'.SoleOutput id name := by
  obtain ⟨e, hsource, hname, hone, hsole⟩ := h
  refine ⟨e, hsource, hname, (hsame e hname).trans hone, fun x hx hxsource hxname => ?_⟩
  rw [hsame x hxname] at hx
  exact hsole x hx hxsource hxname

/-- What is spliced onto a value edge touches no other role. -/
theorem Spliced.multiplicity_of_isControl {g g' : Graph} {e : Edge} {mid : NodeId} (h : Spliced g g' e mid)
    (hvalue : e.role.isValue = true) {x : Edge} (hx : x.role.isControl = true) : g'.multiplicity x = g.multiplicity x := by
  have hne : ∀ {y : Edge}, y.role.isValue = true → x ≠ y := by
    rintro y hy rfl
    rw [Role.isControl_of_isValue hy] at hx
    cases hx
  have hhead : (spliceHead e mid).role.isValue = true := by
    rw [spliceHead_of_isValue hvalue]
    rfl
  have hbalance := h.balance x (hne hhead) (hne (y := spliceTail e mid) hvalue)
  rwa [List.count_eq_zero_of_not_mem (by simpa using hne hvalue), Nat.add_zero] at hbalance

/-- What is put in control flow adds plain edges. -/
theorem Sequenced.multiplicity_of_ne {g g' : Graph} {before mid after : NodeId} (h : Sequenced g g' before mid after)
    (hg : g.Consistent) (hg' : g'.Consistent) {x : Edge} (hx : x.role.isControl = true) (hne : x.role ≠ .control) :
    g'.multiplicity x = g.multiplicity x := by
  have hcount : ∀ {s : Graph}, s.Consistent → (s.inputsWhere x.target Role.isControl).count x = s.multiplicity x := by
    intro s hs
    rw [hs.multiplicity_eq, inputsWhere]
    exact List.count_filter (p := fun e : Edge => e.role.isControl) hx
  have hnew : x ∉ [(⟨before, mid, .control⟩ : Edge), ⟨mid, after, .control⟩].filter (·.target = x.target) := by
    intro hmem
    rcases List.mem_pair.1 (List.mem_of_mem_filter hmem) with rfl | rfl
    · exact hne rfl
    · exact hne rfl
  rw [← hcount hg', ← hcount hg, h.entries, List.count_append, List.count_eq_zero_of_not_mem hnew, Nat.add_zero]

/-- An edge is in the renamed graph as often as it was. -/
theorem Renamed.multiplicity_eq {g g' : Graph} {old new : NodeId} (h : Renamed g g' old new) (hg : g.Consistent)
    (hg' : g'.Consistent) {e : Edge} (he : 0 < g.multiplicity e) :
    g'.multiplicity (renameEdge old new e) = g.multiplicity e := by
  have hback : ∀ {y : Edge}, 0 < g.multiplicity y → renameEdge new old (renameEdge old new y) = y := by
    intro y hy
    obtain ⟨hsource, htarget⟩ := hg.has_of_multiplicity hy
    simp only [renameEdge, rename_rename_of_ne (h.ne_new hsource), rename_rename_of_ne (h.ne_new htarget)]
  have htarget := h.ne_new (hg.has_of_multiplicity he).2
  rw [hg'.multiplicity_eq, hg.multiplicity_eq, renameEdge_target, h.inputs _ (h.rename_ne_old _),
    rename_rename_of_ne htarget, List.count_eq_countP, List.countP_map, List.count_eq_countP]
  refine List.countP_congr fun y hy => ?_
  have hpos : 0 < g.multiplicity y := multiplicity_pos.2 (hg.mem_outputs hy)
  simp only [Function.comp_apply, beq_iff_eq]
  constructor
  · intro heq
    rw [← hback hpos, heq, hback he]
  · rintro rfl
    rfl

theorem Renamed.soleOutput {g g' : Graph} {old new : NodeId} (h : Renamed g g' old new) (hg : g.Consistent)
    (hg' : g'.Consistent) {id : NodeId} {name : Role.Name} (hne : id ≠ old) (hsole : g.SoleOutput id name) :
    g'.SoleOutput id name := by
  obtain ⟨e, rfl, hname, hone, hsole⟩ := hsole
  refine ⟨renameEdge old new e, if_neg hne, hname, ?_, fun x hx hxsource hxname => ?_⟩
  · rw [h.multiplicity_eq hg hg' (by omega), hone]
  · obtain ⟨y, hy, rfl, hrole, -⟩ := h.exists_edge hx
    have hysource : y.source = e.source := by
      have hrename : rename new old (rename old new y.source) = y.source :=
        rename_rename_of_ne (h.ne_new (hg.has_of_multiplicity hy).1)
      rw [renameEdge_source] at hxsource
      rw [← hrename, hxsource, rename, if_neg]
      exact h.ne_new (hg.has_of_multiplicity (show 0 < g.multiplicity e by omega)).1
    rw [hsole y hy hysource (hrole ▸ hxname)]

end SeaOfNodes.Graph

namespace SeaOfNodes.Pass.Tagging

open SeaOfNodes.Graph SeaOfNodes.Listing

/-- Each outcome of a branch stays one edge. -/
theorem Step.soleOutput {g g' : Graph} (h : Step g g') (hg : g.Consistent) (hg' : g'.Consistent) {id : NodeId}
    (hop : g.op id = .branch) {name : Role.Name} (hname : name = .ifTrue ∨ name = .ifFalse)
    (hsole : g.SoleOutput id name) : g'.SoleOutput id name := by
  have hcontrol : ∀ {x : Edge}, x.role.name = name → x.role.isControl = true ∧ x.role ≠ .control := by
    intro x hx
    rw [Role.isControl, hx]
    rcases hname with rfl | rfl
    · exact ⟨rfl, fun heq => by rw [heq] at hx; cases hx⟩
    · exact ⟨rfl, fun heq => by rw [heq] at hx; cases hx⟩
  cases h with
  | untag hsplice hvalue _ _ _ =>
      exact hsole.of_multiplicity fun x hx => hsplice.multiplicity_of_isControl hvalue (hcontrol hx).1
  | tag hsplice hvalue _ _ _ =>
      exact hsole.of_multiplicity fun x hx => hsplice.multiplicity_of_isControl hvalue (hcontrol hx).1
  | sequence hsequence _ _ _ _ _ _ _ =>
      exact hsole.of_multiplicity fun x hx => hsequence.multiplicity_of_ne hg hg' (hcontrol hx).1 (hcontrol hx).2
  | test hrename hold _ _ =>
      refine hrename.soleOutput hg hg' ?_ hsole
      rintro rfl
      rw [hop] at hold
      cases hold
  | add hrename hold _ _ =>
      refine hrename.soleOutput hg hg' ?_ hsole
      rintro rfl
      rw [hop] at hold
      cases hold

theorem Lowers.soleOutput {g g' : Graph} (h : Lowers g g') {id : NodeId} (hop : g'.op id = .branch) {name : Role.Name}
    (hname : name = .ifTrue ∨ name = .ifFalse) (hsole : g.SoleOutput id name) : g'.SoleOutput id name := by
  induction h with
  | refl => exact hsole
  | tail _ hlast ih =>
      obtain ⟨hg, hg', hstep⟩ := hlast
      have hop := (hstep.unmade (by decide) hop).1
      exact hstep.soleOutput hg hg' hop hname (ih hop)

/-- Branches and sends of the lowered graph have what they need if they had it before. -/
theorem operable_run {g : Graph} {r : Change} (hg : g.Consistent) (h : run g = .ok r) (hoperable : ∀ id, Operable g id)
    (id : NodeId) : Operable r.graph id := by
  obtain ⟨hlowers, hg', -⟩ := lowers_run hg h
  obtain ⟨named, done, hreplaces, -⟩ := replaces_of_run hg h
  have hkept : r.graph.op id = .branch ∨ r.graph.op id = .send → Operable r.graph id := by
    intro hop
    obtain ⟨hsame, hprops⟩ : g.op id = r.graph.op id ∧ r.graph.props id = g.props id := by
      rcases hop with hop | hop
      · obtain ⟨hop', hprops⟩ := hlowers.unmade (by decide) hop
        exact ⟨hop'.trans hop.symm, hprops⟩
      · obtain ⟨hop', hprops⟩ := hlowers.unmade (by decide) hop
        exact ⟨hop'.trans hop.symm, hprops⟩
    have hlive : g.has id = true := has_of_op_ne_invalid fun hinvalid => by simp [← hsame, hinvalid] at hop
    have hnot : id ∉ done := by
      intro hdone
      rw [← hsame] at hop
      rcases hreplaces.targets id hdone with htarget | htarget
      · simp [htarget] at hop
      · simp [htarget] at hop
    have hroles := hreplaces.refed id hlive
    rw [(hreplaces.kept id hlive hnot).1] at hroles
    refine (hoperable id).of_roles hsame.symm (fun key _ => by rw [hprops]) ?_ fun hbranch name hname hone => ?_
    · rw [← List.forall₂_eq_eq_eq, List.forall₂_map_left_iff, List.forall₂_map_right_iff]
      exact hroles.flip.imp fun _ _ hpair => hpair.1
    · rw [length_outputsNamed_eq_one_iff hg'] 
      rw [length_outputsNamed_eq_one_iff hg] at hone
      exact hlowers.soleOutput (hsame ▸ hbranch) hname hone
  exact ⟨fun hop => (hkept (.inl hop)).condition hop, fun hop => (hkept (.inl hop)).outcomes hop,
    fun hop => (hkept (.inr hop)).receiver hop, fun hop => (hkept (.inr hop)).selector hop,
    fun hop => (hkept (.inr hop)).args hop⟩

end SeaOfNodes.Pass.Tagging
