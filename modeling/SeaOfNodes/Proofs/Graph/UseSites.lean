/-
  SeaOfNodes.Proofs.Graph.UseSites

  Where values are needed once a graph is rewritten.  A phi needs an operand at the end of
  the predecessor that its merge has for it, which is found by control alone.  So splicing a
  node onto a value edge moves no place, nor does control that is added last, and renaming
  moves each place to where its node is now.
-/
import Mathlib.Data.List.Find
import SeaOfNodes.Proofs.Graph.Consistent
import SeaOfNodes.Proofs.Graph.Conversions

namespace SeaOfNodes.Graph

/-- The predecessor where a phi needs an operand. -/
structure NeededAt (g : Graph) (e : Edge) (n : Int64) (merge site : NodeId) : Prop where
  op : g.op e.target = .phi
  name : e.role.name = .value
  index : e.role.index = some n
  merge_eq : g.phiMerge? e.target = some merge
  site_eq : g.mergePredecessor? merge n = some site

theorem NeededAt.useSite {g : Graph} {e : Edge} {n : Int64} {merge site : NodeId} (h : g.NeededAt e n merge site) :
    g.useSite e = site := by
  simp [Graph.useSite, h.op, h.name, h.index, h.merge_eq, h.site_eq]

/-- A value is needed at its target or at such a predecessor. -/
theorem useSite_cases (g : Graph) (e : Edge) :
    g.useSite e = e.target ∨ ∃ n merge, g.NeededAt e n merge (g.useSite e) := by
  unfold Graph.useSite
  split
  · rename_i hphi
    cases hindex : e.role.index with
    | none => exact .inl rfl
    | some n =>
        cases hmerge : g.phiMerge? e.target with
        | none => exact .inl rfl
        | some merge =>
            cases hsite : g.mergePredecessor? merge n with
            | none => exact .inl (by simp [hsite])
            | some site => exact .inr ⟨n, merge, hphi.1, hphi.2, hindex, hmerge, by simp [hsite]⟩
  · exact .inl rfl

/-- Control leads from that predecessor to the merge and from there to the phi. -/
theorem NeededAt.mem_controlSuccessors {g : Graph} (hg : g.Consistent) {e : Edge} {n : Int64} {merge site : NodeId}
    (h : g.NeededAt e n merge site) : merge ∈ g.controlSuccessors site ∧ e.target ∈ g.controlSuccessors merge := by
  obtain ⟨e', he', rfl⟩ := Option.map_eq_some_iff.1 h.site_eq
  have hin : e'.source ∈ g.controlPredecessors merge := List.mem_map_of_mem (List.mem_of_find?_eq_some he')
  exact ⟨hg.mem_controlPredecessors.1 hin, hg.mem_controlPredecessors.1 (List.mem_of_find?_eq_some h.merge_eq)⟩

theorem Filed.mem_useSites {g : Graph} (h : g.Filed) {n site : NodeId} : site ∈ g.useSites n ↔
    ∃ e, 0 < g.multiplicity e ∧ e.role.isValue = true ∧ e.source = n ∧ g.useSite e = site := by
  simp only [useSites, outputsWhere, List.mem_map, List.mem_filter, multiplicity_pos]
  constructor
  · rintro ⟨e, ⟨he, hvalue⟩, rfl⟩
    have hsource := h.source_eq n e he
    subst hsource
    exact ⟨e, he, hvalue, rfl, rfl⟩
  · rintro ⟨e, he, hvalue, rfl, rfl⟩
    exact ⟨e, ⟨he, hvalue⟩, rfl⟩

theorem Consistent.has_of_mem_consumers {g : Graph} (hg : g.Consistent) {n m : NodeId} (h : m ∈ g.consumers n) :
    g.has m = true := by
  obtain ⟨role, -, hpos⟩ := hg.mem_consumers.1 h
  exact (hg.has_of_multiplicity hpos).2

/-- Every operand of a phi is needed before the phi. -/
def PhisResolved (g : Graph) : Prop :=
  ∀ e, 0 < g.multiplicity e → e.role.isValue = true → g.op e.target = .phi → g.useSite e ≠ e.target

/-! ## A node spliced onto a value edge -/

section Spliced

variable {g g' : Graph} {e : Edge} {mid : NodeId} (h : Spliced g g' e mid) (hvalue : e.role.isValue = true)
include h hvalue

theorem Spliced.entries {id : NodeId} (hid : id ≠ mid) :
    g'.inputsWhere id Role.isControl = g.inputsWhere id Role.isControl := by
  have hkind := Role.isControl_of_isValue hvalue
  unfold inputsWhere
  rw [h.inputs id hid]
  split
  · apply filter_replaceFirst_of_not
    · exact hkind
    · exact hkind
  · rfl

theorem Spliced.controlSuccessors_iff (hg : g.Consistent) (hg' : g'.Consistent) {a b : NodeId} :
    b ∈ g'.controlSuccessors a ↔ b ∈ g.controlSuccessors a := by
  rw [hg.mem_controlSuccessors, hg'.mem_controlSuccessors]
  exact exists_congr fun role => and_congr_right fun hrole => h.control_iff hvalue hrole

theorem Spliced.leadsTo_eq (hg : g.Consistent) (hg' : g'.Consistent) : g'.LeadsTo = g.LeadsTo := by
  have hsame : (fun a b => b ∈ g'.controlSuccessors a) = fun a b => b ∈ g.controlSuccessors a := by
    funext a b
    exact propext (h.controlSuccessors_iff hvalue hg hg')
  unfold LeadsTo
  rw [hsame]

theorem Spliced.phiMerge?_eq (hg : g.Consistent) {id : NodeId} (hid : id ≠ mid) : g'.phiMerge? id = g.phiMerge? id := by
  unfold phiMerge? controlPredecessors
  rw [h.entries hvalue hid]
  refine List.find?_congr fun pred hpred => ?_
  rw [h.op]
  obtain ⟨y, hy, rfl⟩ := List.mem_map.1 hpred
  exact h.ne_mid (hg.has_source (List.mem_of_mem_filter hy))

theorem Spliced.useSite (hg : g.Consistent) {x : Edge} (htarget : x.target ≠ mid) : g'.useSite x = g.useSite x := by
  have hmerges := h.phiMerge?_eq hvalue hg htarget
  have hpreds : ∀ merge, g.phiMerge? x.target = some merge → g'.mergePredecessor? merge = g.mergePredecessor? merge := by
    intro merge hmerge
    funext n
    have hne : merge ≠ mid := by
      obtain ⟨y, hy, rfl⟩ := List.mem_map.1 (List.mem_of_find?_eq_some hmerge)
      exact h.ne_mid (hg.has_source (List.mem_of_mem_filter hy))
    unfold mergePredecessor?
    rw [h.entries hvalue hne]
  unfold Graph.useSite
  rw [h.op _ htarget, hmerges]
  cases hmerge : g.phiMerge? x.target with
  | none => rfl
  | some merge => simp [hpreds merge hmerge]

theorem Spliced.phisResolved (hg : g.Consistent) (hphi : g'.op mid ≠ .phi) (hres : g.PhisResolved) : g'.PhisResolved := by
  intro x hx hrole hop
  rcases h.old x hx with rfl | rfl | hold
  · exact absurd hop hphi
  · have hne := h.ne_mid (hg.has_of_multiplicity h.edge).2
    rw [h.useSite hvalue hg (x := spliceTail e mid) hne]
    exact hres e h.edge hvalue ((h.op _ hne).symm.trans hop)
  · have hne := h.ne_mid (hg.has_of_multiplicity hold).2
    rw [h.useSite hvalue hg hne]
    rw [h.op _ hne] at hop
    exact hres x hold hrole hop

section Sites

variable (hg : g.Consistent) (hg' : g'.Consistent)
include hg hg'

theorem Spliced.mem_useSites_tail : g.useSite e ∈ g'.useSites mid := by
  refine hg'.mem_useSites.2 ⟨spliceTail e mid, h.tail, hvalue, rfl, ?_⟩
  exact h.useSite hvalue hg (x := spliceTail e mid) (h.ne_mid (hg.has_of_multiplicity h.edge).2)

/-- The new node is read in the place of the old one. -/
theorem Spliced.eq_of_mem_useSites {site : NodeId} (hsite : site ∈ g'.useSites mid) : site = g.useSite e := by
  obtain ⟨x, hx, -, hsource, rfl⟩ := hg'.mem_useSites.1 hsite
  rcases h.old x hx with rfl | rfl | hold
  · exact absurd hsource (h.ne_mid (hg.has_of_multiplicity h.edge).1)
  · exact h.useSite hvalue hg (x := spliceTail e mid) (h.ne_mid (hg.has_of_multiplicity h.edge).2)
  · exact absurd hsource (h.ne_mid (hg.has_of_multiplicity hold).1)

/-- It reads for the target, and all other places stay. -/
theorem Spliced.mem_useSites_of_new (hphi : g'.op mid ≠ .phi) {n site : NodeId} (hn : n ≠ mid)
    (hsite : site ∈ g'.useSites n) : (n = e.source ∧ site = mid) ∨ site ∈ g.useSites n := by
  obtain ⟨x, hx, hrole, rfl, rfl⟩ := hg'.mem_useSites.1 hsite
  rcases h.old x hx with rfl | rfl | hold
  · exact .inl ⟨rfl, useSite_eq_target hphi⟩
  · exact absurd rfl hn
  · rw [h.useSite hvalue hg (h.ne_mid (hg.has_of_multiplicity hold).2)]
    exact .inr (hg.mem_useSites.2 ⟨x, hold, hrole, rfl, rfl⟩)

theorem Spliced.mem_useSites_of_old {n site : NodeId} (hsite : site ∈ g.useSites n) :
    (n = e.source ∧ site = g.useSite e) ∨ site ∈ g'.useSites n := by
  obtain ⟨x, hx, hrole, rfl, rfl⟩ := hg.mem_useSites.1 hsite
  rcases h.kept x hx with rfl | hkept
  · exact .inl ⟨rfl, rfl⟩
  · rw [← h.useSite hvalue hg (h.ne_mid (hg.has_of_multiplicity hx).2)]
    exact .inr (hg'.mem_useSites.2 ⟨x, hkept, hrole, rfl, rfl⟩)

end Sites

end Spliced

theorem Spliced.mem_useSites_head {g g' : Graph} {e : Edge} {mid : NodeId} (h : Spliced g g' e mid)
    (hvalue : e.role.isValue = true) (hg' : g'.Consistent) (hphi : g'.op mid ≠ .phi) : mid ∈ g'.useSites e.source := by
  refine hg'.mem_useSites.2 ⟨spliceHead e mid, h.head, ?_, rfl, useSite_eq_target hphi⟩
  rw [spliceHead_of_isValue hvalue]
  rfl

theorem Spliced.mem_consumers_of_new {g g' : Graph} {e : Edge} {mid : NodeId} (h : Spliced g g' e mid)
    (hg : g.Consistent) (hg' : g'.Consistent) {n m : NodeId} (hn : n ≠ mid) (hm : m ∈ g'.consumers n) :
    (n = e.source ∧ m = mid) ∨ m ∈ g.consumers n := by
  obtain ⟨role, hrole, hpos⟩ := hg'.mem_consumers.1 hm
  rcases h.old _ hpos with hhead | htail | hold
  · exact .inl ⟨congrArg Edge.source hhead, congrArg Edge.target hhead⟩
  · exact absurd (congrArg Edge.source htail) hn
  · exact .inr (hg.mem_consumers.2 ⟨role, hrole, hold⟩)

theorem Spliced.eq_of_mem_consumers {g g' : Graph} {e : Edge} {mid : NodeId} (h : Spliced g g' e mid)
    (hg : g.Consistent) (hg' : g'.Consistent) {m : NodeId} (hm : m ∈ g'.consumers mid) : m = e.target := by
  obtain ⟨role, -, hpos⟩ := hg'.mem_consumers.1 hm
  rcases h.old _ hpos with hhead | htail | hold
  · exact absurd (congrArg Edge.source hhead) (h.ne_mid (hg.has_of_multiplicity h.edge).1).symm
  · exact congrArg Edge.target htail
  · exact absurd rfl (h.ne_mid (hg.has_of_multiplicity hold).1)

/-! ## A node put in control flow -/

section Sequenced

variable {g g' : Graph} {before mid after : NodeId} (h : Sequenced g g' before mid after)
include h

theorem Sequenced.controlSuccessors_iff (hg : g.Consistent) (hg' : g'.Consistent) {a b : NodeId} :
    b ∈ g'.controlSuccessors a ↔
      b ∈ g.controlSuccessors a ∨ (a = before ∧ b = mid) ∨ (a = mid ∧ b = after) := by
  rw [hg.mem_controlSuccessors, hg'.mem_controlSuccessors]
  constructor
  · rintro ⟨role, hrole, hpos⟩
    simp only [h.edge, Edge.mk.injEq] at hpos
    rcases hpos with hpos | ⟨rfl, rfl, -⟩ | ⟨rfl, rfl, -⟩
    · exact .inl ⟨role, hrole, hpos⟩
    · exact .inr (.inl ⟨rfl, rfl⟩)
    · exact .inr (.inr ⟨rfl, rfl⟩)
  · rintro (⟨role, hrole, hpos⟩ | ⟨rfl, rfl⟩ | ⟨rfl, rfl⟩)
    · exact ⟨role, hrole, (h.edge _).2 (.inl hpos)⟩
    · exact ⟨.control, rfl, (h.edge _).2 (.inr (.inl rfl))⟩
    · exact ⟨.control, rfl, (h.edge _).2 (.inr (.inr rfl))⟩

theorem Sequenced.mem_consumers_iff (hg : g.Consistent) (hg' : g'.Consistent) {n m : NodeId} :
    m ∈ g'.consumers n ↔ m ∈ g.consumers n := by
  rw [hg.mem_consumers, hg'.mem_consumers]
  exact exists_congr fun role => and_congr_right fun hrole => h.value_iff hrole

/-- Control that is added last is found last, so a place that was found stays. -/
theorem Sequenced.phiMerge?_eq {id merge : NodeId} (hfound : g.phiMerge? id = some merge) :
    g'.phiMerge? id = some merge := by
  unfold phiMerge? controlPredecessors at hfound ⊢
  rw [h.entries, List.map_append, List.find?_append, funext h.nodes.op, hfound]
  rfl

theorem Sequenced.neededAt {e : Edge} {n : Int64} {merge site : NodeId} (he : g.NeededAt e n merge site) :
    g'.NeededAt e n merge site := by
  refine ⟨by rw [h.nodes.op, he.op], he.name, he.index, h.phiMerge?_eq he.merge_eq, ?_⟩
  obtain ⟨e', he', rfl⟩ := Option.map_eq_some_iff.1 he.site_eq
  unfold mergePredecessor?
  rw [h.entries, List.find?_append, he']
  rfl

theorem Sequenced.useSite (hres : g.PhisResolved) {e : Edge} (he : 0 < g.multiplicity e)
    (hrole : e.role.isValue = true) : g'.useSite e = g.useSite e := by
  by_cases hphi : g.op e.target = .phi
  · obtain ⟨n, merge, hneeded⟩ := (useSite_cases g e).resolve_left (hres e he hrole hphi)
    exact (h.neededAt hneeded).useSite
  · rw [useSite_eq_target hphi, useSite_eq_target]
    rw [h.nodes.op]
    exact hphi

theorem Sequenced.mem_useSites_iff (hg : g.Consistent) (hg' : g'.Consistent) (hres : g.PhisResolved)
    {n site : NodeId} : site ∈ g'.useSites n ↔ site ∈ g.useSites n := by
  rw [hg.mem_useSites, hg'.mem_useSites]
  refine exists_congr fun e => ?_
  constructor
  · rintro ⟨he, hrole, hsource, hsite⟩
    have he := (h.value_iff hrole).1 he
    exact ⟨he, hrole, hsource, by rw [← h.useSite hres he hrole]; exact hsite⟩
  · rintro ⟨he, hrole, hsource, hsite⟩
    exact ⟨(h.value_iff hrole).2 he, hrole, hsource, by rw [h.useSite hres he hrole]; exact hsite⟩

theorem Sequenced.phisResolved (hres : g.PhisResolved) : g'.PhisResolved := by
  intro e he hrole hop
  rw [h.nodes.op] at hop
  have he := (h.value_iff hrole).1 he
  rw [h.useSite hres he hrole]
  exact hres e he hrole hop

end Sequenced

/-! ## A node that takes the place of another -/

theorem op_ne_of_isFixed {op op' : Op} (h : op.isFixed = false) (h' : op'.isFixed = true) : op ≠ op' := by
  rintro rfl
  rw [h] at h'
  cases h'

section Renamed

variable {g g' : Graph} {old new : NodeId} (h : Renamed g g' old new)
include h

theorem Renamed.entries {id : NodeId} (hid : id ≠ old) :
    g'.inputsWhere id Role.isControl = (g.inputsWhere (rename new old id) Role.isControl).map (renameEdge old new) := by
  rw [inputsWhere, h.inputs id hid, List.filter_map]
  rfl

/-- Each edge of the renamed graph is one of the graph before. -/
theorem Renamed.exists_edge {x : Edge} (hx : 0 < g'.multiplicity x) :
    ∃ y, 0 < g.multiplicity y ∧ renameEdge old new y = x ∧ y.role = x.role ∧ y.source = rename new old x.source := by
  obtain ⟨hsource, htarget, hpos⟩ := (h.edge x).1 hx
  refine ⟨_, hpos, ?_, rfl, rfl⟩
  simp only [renameEdge, rename_rename_of_ne hsource, rename_rename_of_ne htarget]

section Names

variable (hg : g.Consistent) (hg' : g'.Consistent)
include hg hg'

theorem Renamed.controlSuccessors_iff {a b : NodeId} (ha : a ≠ old) (hb : b ≠ old) :
    b ∈ g'.controlSuccessors a ↔ rename new old b ∈ g.controlSuccessors (rename new old a) := by
  rw [hg.mem_controlSuccessors, hg'.mem_controlSuccessors]
  refine exists_congr fun role => and_congr_right fun _ => ?_
  rw [h.edge]
  exact ⟨fun hpos => hpos.2.2, fun hpos => ⟨ha, hb, hpos⟩⟩

theorem Renamed.mem_consumers_iff {a b : NodeId} (ha : a ≠ old) (hb : b ≠ old) :
    b ∈ g'.consumers a ↔ rename new old b ∈ g.consumers (rename new old a) := by
  rw [hg.mem_consumers, hg'.mem_consumers]
  refine exists_congr fun role => and_congr_right fun _ => ?_
  rw [h.edge]
  exact ⟨fun hpos => hpos.2.2, fun hpos => ⟨ha, hb, hpos⟩⟩

end Names

-- Neither node is fixed by its operation, so neither is a phi or a merge.
variable (hold : (g.op old).isFixed = false) (hnew : (g'.op new).isFixed = false)
include hold hnew

theorem Renamed.op_iff_of_isFixed {id : NodeId} (hid : g.has id = true) {op : Op} (hop : op.isFixed = true) :
    g'.op (rename old new id) = op ↔ g.op id = op := by
  by_cases heq : id = old
  · rw [heq, rename, if_pos rfl]
    exact iff_of_false (op_ne_of_isFixed hnew hop) (op_ne_of_isFixed hold hop)
  · rw [rename, if_neg heq, h.op id heq (h.ne_new hid)]

theorem Renamed.phiMerge?_eq (hg : g.Consistent) {id merge : NodeId} (hid : g.has id = true)
    (hfound : g.phiMerge? id = some merge) : g'.phiMerge? (rename old new id) = some (rename old new merge) := by
  unfold phiMerge? controlPredecessors at hfound ⊢
  rw [h.entries (h.rename_ne_old _), rename_rename_of_ne (h.ne_new hid), List.map_map]
  have hsources : Edge.source ∘ renameEdge old new = rename old new ∘ Edge.source := rfl
  have hmerges : ∀ pred ∈ (g.inputsWhere id Role.isControl).map Edge.source,
      ((fun pred => decide (g'.op pred = .merge)) ∘ rename old new) pred = decide (g.op pred = .merge) := by
    intro pred hpred
    obtain ⟨y, hy, rfl⟩ := List.mem_map.1 hpred
    have hlive := hg.has_source (List.mem_of_mem_filter hy)
    exact decide_eq_decide.2 (h.op_iff_of_isFixed hold hnew hlive rfl)
  rw [hsources, ← List.map_map, List.find?_map, List.find?_congr hmerges, hfound]
  rfl

theorem Renamed.neededAt (hg : g.Consistent) {e : Edge} {n : Int64} {merge site : NodeId} (he : g.NeededAt e n merge site) :
    g'.NeededAt (renameEdge old new e) n (rename old new merge) (rename old new site) := by
  have hlive : ∀ {id : NodeId} {op : Op}, g.op id = op → op ≠ .invalid → g.has id = true := fun hop hne =>
    has_of_op_ne_invalid (by rw [hop]; exact hne)
  have hphi := hlive he.op (by decide)
  have hmergeOp : g.op merge = .merge := by simpa using List.find?_some he.merge_eq
  have hmergeLive := hlive hmergeOp (by decide)
  refine ⟨(h.op_iff_of_isFixed hold hnew hphi rfl).2 he.op, he.name, he.index,
    h.phiMerge?_eq hold hnew hg hphi he.merge_eq, ?_⟩
  obtain ⟨e', he', rfl⟩ := Option.map_eq_some_iff.1 he.site_eq
  unfold mergePredecessor?
  rw [h.entries (h.rename_ne_old _), rename_rename_of_ne (h.ne_new hmergeLive), List.find?_map]
  have hrole : (fun e : Edge => decide (e.role.slot = n) || decide (n = 0) && e.role.index.isNone) ∘ renameEdge old new =
      fun e => decide (e.role.slot = n) || decide (n = 0) && e.role.index.isNone := rfl
  rw [hrole, he']
  rfl

variable (hg : g.Consistent) (hres : g.PhisResolved)
include hg hres

theorem Renamed.useSite {e : Edge} (he : 0 < g.multiplicity e) (hrole : e.role.isValue = true) :
    g'.useSite (renameEdge old new e) = rename old new (g.useSite e) := by
  have htarget := (hg.has_of_multiplicity he).2
  by_cases hphi : g.op e.target = .phi
  · obtain ⟨n, merge, hneeded⟩ := (useSite_cases g e).resolve_left (hres e he hrole hphi)
    exact (h.neededAt hold hnew hg hneeded).useSite
  · rw [useSite_eq_target hphi, useSite_eq_target]
    · rfl
    · rw [renameEdge_target]
      exact fun hop => hphi ((h.op_iff_of_isFixed hold hnew htarget rfl).1 hop)

theorem Renamed.mem_useSites_iff (hg' : g'.Consistent) {n site : NodeId} (hn : n ≠ old) :
    site ∈ g'.useSites n ↔ ∃ place ∈ g.useSites (rename new old n), rename old new place = site := by
  rw [hg'.mem_useSites]
  constructor
  · rintro ⟨x, hx, hrole, rfl, rfl⟩
    obtain ⟨y, hy, rfl, hyrole, hsource⟩ := h.exists_edge hx
    exact ⟨g.useSite y, hg.mem_useSites.2 ⟨y, hy, hrole, hsource, rfl⟩, (h.useSite hold hnew hg hres hy hrole).symm⟩
  · rintro ⟨place, hplace, rfl⟩
    obtain ⟨y, hy, hrole, hsource, rfl⟩ := hg.mem_useSites.1 hplace
    refine ⟨renameEdge old new y, h.multiplicity_renameEdge hg hy, hrole, ?_, h.useSite hold hnew hg hres hy hrole⟩
    rw [renameEdge_source, hsource, rename_rename_of_ne hn]

theorem Renamed.phisResolved : g'.PhisResolved := by
  intro x hx hrole hop
  obtain ⟨y, hy, rfl, -, -⟩ := h.exists_edge hx
  obtain ⟨hsource, htarget⟩ := hg.has_of_multiplicity hy
  have hphi := (h.op_iff_of_isFixed hold hnew htarget rfl).1 hop
  have hsite : g.has (g.useSite y) = true := has_of_isFixed (hg.isFixed_useSite hphi)
  rw [h.useSite hold hnew hg hres hy hrole, renameEdge_target]
  intro heq
  have hback := congrArg (rename new old) heq
  rw [rename_rename_of_ne (h.ne_new hsite), rename_rename_of_ne (h.ne_new htarget)] at hback
  exact hres y hy hrole hphi hback

end Renamed

end SeaOfNodes.Graph
