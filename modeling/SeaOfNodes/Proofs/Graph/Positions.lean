/-
  SeaOfNodes.Proofs.Graph.Positions

  Where surgery leaves the edges at a node.  Edges are redirected in place, so the inputs and
  outputs of a node keep their order; what changes is which node an edge comes from or leads to.
-/
import SeaOfNodes.Proofs.Graph.Multiplicity

namespace SeaOfNodes

/-- Replacing one member by another that stands in for it keeps lists related. -/
theorem forall₂_replaceFirst {α β : Type} [DecidableEq β] {R : α → β → Prop} {old new : β} {l : List α}
    {l' : List β} (h : List.Forall₂ R l l') (hnew : ∀ a, R a old → R a new) :
    List.Forall₂ R l (replaceFirst old new l') := by
  induction h with
  | nil => exact .nil
  | @cons a b l l' hab hrest ih =>
      rw [replaceFirst]
      split
      · rename_i hb
        exact .cons (hnew a (hb ▸ hab)) hrest
      · exact .cons hab ih

/-- Members that pass a test are replaced among those that do. -/
theorem filter_replaceFirst {α : Type} [DecidableEq α] {test : α → Bool} {old new : α} (hold : test old = true)
    (hnew : test new = true) (l : List α) :
    (replaceFirst old new l).filter test = replaceFirst old new (l.filter test) := by
  induction l with
  | nil => rfl
  | cons a rest ih =>
      rw [replaceFirst]
      by_cases ha : a = old
      · rw [if_pos ha, List.filter_cons_of_pos hnew, List.filter_cons_of_pos (ha ▸ hold), replaceFirst, if_pos ha]
      · rw [if_neg ha]
        cases htest : test a with
        | true => rw [List.filter_cons_of_pos htest, List.filter_cons_of_pos htest, replaceFirst, if_neg ha, ih]
        | false =>
            rw [List.filter_cons_of_neg (by simp [htest]), List.filter_cons_of_neg (by simp [htest]), ih]

/-- Members that fail a test are replaced by one that fails it too. -/
theorem filter_replaceFirst_of_not {α : Type} [DecidableEq α] {test : α → Bool} {old new : α} (hold : test old = false)
    (hnew : test new = false) (l : List α) : (replaceFirst old new l).filter test = l.filter test := by
  induction l with
  | nil => rfl
  | cons a rest ih =>
      rw [replaceFirst]
      by_cases ha : a = old
      · rw [if_pos ha, List.filter_cons_of_neg (by simp [hnew]), List.filter_cons_of_neg (by simp [ha, hold])]
      · rw [if_neg ha, List.filter_cons, List.filter_cons, ih]

/-- What an edge list keeps when edges that fail a test are erased from it. -/
theorem filter_erase_of_not {α : Type} [DecidableEq α] {keep : α → Bool} {a : α} (ha : keep a = false)
    (l : List α) : (l.erase a).filter keep = l.filter keep := by
  rw [← List.erase_filter, List.erase_of_not_mem]
  rw [List.mem_filter, ha]
  exact fun hmem => Bool.false_ne_true hmem.2

namespace Graph

theorem inputs_redirectInput (g : Graph) (e m : Edge) (id other : NodeId) :
    (g.modify id (Node.redirectInput e m)).inputs other
      = if other = id then replaceFirst e m (g.inputs other) else g.inputs other := by
  cases hid : g.has id with
  | true => exact inputs_modify g id other _ (replaceFirst e m) (fun _ => rfl) hid
  | false =>
      split
      · rename_i hother
        rw [hother, inputs_eq_nil hid, inputs_eq_nil (by rw [has_modify]; exact hid)]
        rfl
      · rename_i hother
        exact inputs_modify_of_ne hother _

theorem outputs_redirectOutput (g : Graph) (e m : Edge) (id other : NodeId) :
    (g.modify id (Node.redirectOutput e m)).outputs other
      = if other = id then replaceFirst e m (g.outputs other) else g.outputs other := by
  cases hid : g.has id with
  | true => exact outputs_modify g id other _ (replaceFirst e m) (fun _ => rfl) hid
  | false =>
      split
      · rename_i hother
        rw [hother, outputs_eq_nil hid, outputs_eq_nil (by rw [has_modify]; exact hid)]
        rfl
      · rename_i hother
        exact outputs_modify_of_ne hother _

theorem inputs_interdict {g g' : Graph} {e : Edge} {mid : NodeId} (h : g.interdict e mid = .ok g') (id : NodeId) :
    g'.inputs id = (if id = e.target then replaceFirst e (spliceTail e mid) (g.inputs id) else g.inputs id)
      ++ if id = mid then [spliceHead e mid] else [] := by
  obtain ⟨hlive, -, -, rfl⟩ := interdict_eq_ok h
  let g1 := g.modify e.source (Node.redirectOutput e (spliceHead e mid))
  let g2 := g1.modify e.target (Node.redirectInput e (spliceTail e mid))
  have h1 : g1.inputs id = g.inputs id := inputs_modify_of_keep g e.source id _ fun _ => rfl
  have h2 : g2.inputs id = if id = e.target then replaceFirst e (spliceTail e mid) (g.inputs id) else g.inputs id := by
    rw [inputs_redirectInput, h1]
  change ((g2.modify mid (Node.addInput (spliceHead e mid))).modify mid _).inputs id = _
  rw [inputs_modify_of_keep _ mid id (Node.addOutput _) fun _ => rfl,
    inputs_modify g2 mid id _ (· ++ [spliceHead e mid]) (fun _ => rfl) (by rw [has_modify, has_modify]; exact hlive),
    h2]
  by_cases hid : id = mid
  · rw [if_pos hid, if_pos hid]
  · rw [if_neg hid, if_neg hid, List.append_nil]

/-- An edge after `old` is replaced. -/
def renameEdge (old new : NodeId) (e : Edge) : Edge := ⟨rename old new e.source, rename old new e.target, e.role⟩

theorem renameEdge_source (old new : NodeId) (e : Edge) :
    (renameEdge old new e).source = rename old new e.source := rfl

theorem renameEdge_target (old new : NodeId) (e : Edge) :
    (renameEdge old new e).target = rename old new e.target := rfl

section Replace

variable {old new : NodeId}

/-- No end of an edge is the old node after renaming. -/
theorem rename_ne (hne : old ≠ new) (id : NodeId) : rename old new id ≠ old := by
  unfold rename
  split
  · exact hne.symm
  · assumption

theorem rename_rename {id : NodeId} (hid : id ≠ old) : rename old new (rename new old id) = id := by
  by_cases hnew : id = new
  · simp [rename, hnew]
  · simp [rename, hnew, hid]

/-- Renaming is undone by renaming back, as far as neither end was there before. -/
theorem rename_eq_iff {id other : NodeId} (hid : id ≠ new) (hother : other ≠ old) :
    rename old new id = other ↔ id = rename new old other := by
  constructor
  · rintro rfl
    exact (rename_rename hid).symm
  · rintro rfl
    exact rename_rename hother

/-- An edge that is not at the old node keeps its ends. -/
theorem renameEdge_of_ne {e : Edge} (hsource : e.source ≠ old) (htarget : e.target ≠ old) :
    renameEdge old new e = e := by
  simp [renameEdge, rename, hsource, htarget]

theorem renameEdge_renameEdge (hne : old ≠ new) (e : Edge) :
    renameEdge old new (renameEdge old new e) = renameEdge old new e :=
  renameEdge_of_ne (rename_ne hne e.source) (rename_ne hne e.target)

/-- Edges of which each was left alone or renamed, and none is at the old node, were all renamed. -/
theorem eq_map_renameEdge {l l' : List Edge} (h : List.Forall₂ (fun x y => y = x ∨ y = renameEdge old new x) l l')
    (hgone : ∀ y ∈ l', y.source ≠ old ∧ y.target ≠ old) : l' = l.map (renameEdge old new) := by
  have hall : List.Forall₂ (fun x y => renameEdge old new x = y) l l' := by
    refine forall₂_imp_of_mem_mem h fun x _ y hy hxy => ?_
    rcases hxy with rfl | rfl
    · exact renameEdge_of_ne (hgone y hy).1 (hgone y hy).2
    · rfl
  exact (List.forall₂_eq_eq_eq ▸ List.forall₂_map_left_iff.2 hall : _ = _).symm

theorem inputs_foldl_moveInput_of_ne {g : Graph} {id : NodeId} (hid : id ≠ new) (edges : List Edge) :
    (edges.foldl (moveInput old new) g).inputs id = g.inputs id := by
  induction edges generalizing g with
  | nil => rfl
  | cons e rest ih =>
      have hone : (moveInput old new g e).inputs id = g.inputs id := by
        unfold moveInput
        dsimp only
        rw [inputs_modify_of_ne hid]
        split
        · rfl
        · exact inputs_modify_of_keep g e.source id _ fun _ => rfl
      rw [List.foldl_cons, ih, hone]

theorem outputs_foldl_moveOutput_of_ne {g : Graph} {id : NodeId} (hid : id ≠ new) (edges : List Edge) :
    (edges.foldl (moveOutput old new) g).outputs id = g.outputs id := by
  induction edges generalizing g with
  | nil => rfl
  | cons e rest ih =>
      have hone : (moveOutput old new g e).outputs id = g.outputs id := by
        unfold moveOutput
        dsimp only
        rw [outputs_modify_of_ne hid]
        split
        · rfl
        · exact outputs_modify_of_keep g e.target id _ fun _ => rfl
      rw [List.foldl_cons, ih, hone]

/-- Moving what leaves the old node leaves each edge where it stood, or puts there what it is
    renamed to. -/
theorem forall₂_inputs_foldl_moveOutput (hne : old ≠ new) (g : Graph) (id : NodeId) {edges : List Edge}
    (hedges : ∀ e ∈ edges, e.source = old) :
    List.Forall₂ (fun x y => y = x ∨ y = renameEdge old new x) (g.inputs id)
      ((edges.foldl (moveOutput old new) g).inputs id) := by
  refine List.foldlRecOn (motive := fun t : Graph => List.Forall₂ _ (g.inputs id) (t.inputs id)) edges
    (moveOutput old new) (List.forall₂_same.2 fun x _ => .inl rfl) fun t ht e he => ?_
  have hsource := hedges e he
  unfold moveOutput
  dsimp only
  rw [inputs_modify_of_keep _ new id (Node.addOutput _) fun _ => rfl]
  split
  · exact ht
  · rw [inputs_redirectInput]
    split
    · refine forall₂_replaceFirst ht fun x hx => ?_
      rcases hx with rfl | rfl
      · right
        rw [renameEdge, hsource]
        simp [rename]
      · -- An edge that was moved leaves the new node, so it is not moved again.
        exact absurd hsource (rename_ne hne x.source)
    · exact ht

/-- So does moving what reaches it. -/
theorem forall₂_outputs_foldl_moveInput (hne : old ≠ new) (g : Graph) (id : NodeId) {edges : List Edge}
    (hedges : ∀ e ∈ edges, e.target = old) :
    List.Forall₂ (fun x y => y = x ∨ y = renameEdge old new x) (g.outputs id)
      ((edges.foldl (moveInput old new) g).outputs id) := by
  refine List.foldlRecOn (motive := fun t : Graph => List.Forall₂ _ (g.outputs id) (t.outputs id)) edges
    (moveInput old new) (List.forall₂_same.2 fun x _ => .inl rfl) fun t ht e he => ?_
  have htarget := hedges e he
  unfold moveInput
  dsimp only
  rw [outputs_modify_of_keep _ new id (Node.addInput _) fun _ => rfl]
  split
  · exact ht
  · rw [outputs_redirectOutput]
    split
    · refine forall₂_replaceFirst ht fun x hx => ?_
      rcases hx with rfl | rfl
      · right
        rw [renameEdge, htarget]
        simp [rename]
      · exact absurd htarget (rename_ne hne x.target)
    · exact ht

/-- What the new node is given for the edges of the old one. -/
theorem map_moved_inputs {edges : List Edge} (hedges : ∀ e ∈ edges, e.target = old) :
    (edges.map fun e => (⟨rename old new e.source, new, e.role⟩ : Edge)) = edges.map (renameEdge old new) := by
  refine List.map_congr_left fun e he => ?_
  rw [renameEdge, hedges e he]
  simp [rename]

theorem map_moved_outputs {edges : List Edge} (hedges : ∀ e ∈ edges, e.source = old) :
    (edges.map fun e => (⟨new, rename old new e.target, e.role⟩ : Edge)) = edges.map (renameEdge old new) := by
  refine List.map_congr_left fun e he => ?_
  rw [renameEdge, hedges e he]
  simp [rename]

/-- Of the nodes only the replaced one goes. -/
theorem lacks_of_replace {g g' : Graph} (h : g.replace old new = .ok g') : Lacks g g' old := by
  obtain ⟨hold, -, -, rfl⟩ := replace_eq_ok.1 h
  refine lacks_drop ?_ hold
  exact (SameNodes.foldl (sameNodes_moveInput old new) g _).trans (.foldl (sameNodes_moveOutput old new) _ _)

section Laws

variable {g g' : Graph} (hg : g.Consistent) (h : g.replace old new = .ok g')
include hg h

/-- Nothing is at the old node once it is replaced. -/
theorem Consistent.ends_ne_of_replace {id : NodeId} {e : Edge} (he : e ∈ g'.inputs id ∨ e ∈ g'.outputs id) :
    e.source ≠ old ∧ e.target ≠ old := by
  have hg' := hg.replace h
  obtain ⟨-, -, -, hdrop⟩ := replace_eq_ok.1 h
  have hlive : ∀ id, g'.has id = true → id ≠ old := by
    rintro _ hid rfl
    rw [← hdrop] at hid
    simp [Graph.has, node?_drop] at hid
  rcases he with he | he
  · exact ⟨hlive _ (hg'.has_source he), hlive _ (hg'.target_eq id e he ▸ has_of_mem_inputs he)⟩
  · exact ⟨hlive _ (hg'.source_eq id e he ▸ has_of_mem_outputs he), hlive _ (hg'.has_target he)⟩

/-- Replacing a node renames the edges that reach the others where they stand, and hands those that
    reached it to the new one, which has them last. -/
theorem Consistent.inputs_of_replace {id : NodeId} (hid : id ≠ old) :
    g'.inputs id = (g.inputs id ++ if id = new then g.inputs old else []).map (renameEdge old new) := by
  have hends : ∀ e ∈ g'.inputs id, e.source ≠ old ∧ e.target ≠ old := fun e he => hg.ends_ne_of_replace h (.inl he)
  obtain ⟨-, hnew, hne, rfl⟩ := replace_eq_ok.1 h
  rw [inputs_drop, if_neg hid] at hends ⊢
  rw [eq_map_renameEdge (forall₂_inputs_foldl_moveOutput hne _ id (hg.source_eq old)) hends]
  by_cases hidNew : id = new
  · subst hidNew
    rw [inputs_foldl_moveInput hnew, map_moved_inputs (hg.target_eq old), if_pos rfl, List.map_append,
      List.map_append, List.map_map]
    refine congrArg _ (List.map_congr_left fun e _ => ?_)
    exact renameEdge_renameEdge hne e
  · rw [inputs_foldl_moveInput_of_ne hidNew, if_neg hidNew, List.append_nil]

/-- The same of the edges that leave. -/
theorem Consistent.outputs_of_replace {id : NodeId} (hid : id ≠ old) :
    g'.outputs id = (g.outputs id ++ if id = new then g.outputs old else []).map (renameEdge old new) := by
  have hends : ∀ e ∈ g'.outputs id, e.source ≠ old ∧ e.target ≠ old :=
    fun e he => hg.ends_ne_of_replace h (.inr he)
  obtain ⟨-, hnew, hne, rfl⟩ := replace_eq_ok.1 h
  rw [outputs_drop, if_neg hid] at hends ⊢
  have hkept := forall₂_outputs_foldl_moveInput hne g id (hg.target_eq old)
  by_cases hidNew : id = new
  · subst hidNew
    have hlive : ((g.inputs old).foldl (moveInput old id) g).has id = true := by
      rw [(SameNodes.foldl (sameNodes_moveInput old id) g _).has]
      exact hnew
    rw [outputs_foldl_moveOutput hlive] at hends ⊢
    rw [eq_map_renameEdge hkept fun e he => hends e (List.mem_append_left _ he),
      map_moved_outputs (hg.source_eq old), if_pos rfl, List.map_append]
  · rw [outputs_foldl_moveOutput_of_ne hidNew] at hends ⊢
    rw [eq_map_renameEdge hkept hends, if_neg hidNew, List.append_nil]

/-- A node is replaced by one that has no edges: every node then has the edges that it had, or that
    the old node had, renamed where they stand. -/
theorem Consistent.inputs_replace (hin : g.inputs new = []) {id : NodeId} (hid : id ≠ old) :
    g'.inputs id = (g.inputs (rename new old id)).map (renameEdge old new) := by
  rw [hg.inputs_of_replace h hid]
  by_cases hidNew : id = new
  · rw [hidNew, hin, if_pos rfl, List.nil_append, rename, if_pos rfl]
  · rw [if_neg hidNew, List.append_nil, rename, if_neg hidNew]

theorem Consistent.outputs_replace (hout : g.outputs new = []) {id : NodeId} (hid : id ≠ old) :
    g'.outputs id = (g.outputs (rename new old id)).map (renameEdge old new) := by
  rw [hg.outputs_of_replace h hid]
  by_cases hidNew : id = new
  · rw [hidNew, hout, if_pos rfl, List.nil_append, rename, if_pos rfl]
  · rw [if_neg hidNew, List.append_nil, rename, if_neg hidNew]

/-- Putting a node without edges in the place of another renames the ends of its
    edges. -/
theorem Consistent.replace_law (hin : g.inputs new = []) (hout : g.outputs new = []) :
    g.has new = true ∧ old ≠ new ∧ Lacks g g' old ∧
      ∀ x, g'.multiplicity x = if x.source = old ∨ x.target = old then 0
        else g.multiplicity ⟨rename new old x.source, rename new old x.target, x.role⟩ := by
  have hlacks := lacks_of_replace h
  obtain ⟨-, hnew, hne, -⟩ := replace_eq_ok.1 h
  refine ⟨hnew, hne, hlacks, fun x => ?_⟩
  split
  · rename_i hgone
    refine List.count_eq_zero.2 fun hx => ?_
    obtain ⟨hsource, htarget⟩ := hg.ends_ne_of_replace h (.inr hx)
    exact hgone.elim hsource htarget
  · rename_i hgone
    obtain ⟨hsource, htarget⟩ := not_or.1 hgone
    rw [multiplicity, hg.outputs_replace h hout hsource]
    refine count_map_eq_count fun e he => ?_
    have hesource : e.source = rename new old x.source := hg.source_eq _ e he
    have hetarget : e.target ≠ new := by
      intro heq
      have hmem := hg.mem_inputs he
      rw [heq, hin] at hmem
      cases hmem
    obtain ⟨source, target, role⟩ := e
    obtain ⟨source', target', role'⟩ := x
    dsimp only at hsource htarget hesource hetarget
    subst hesource
    simp [renameEdge, rename_rename hsource, rename_eq_iff hetarget htarget]

end Laws

end Replace

/-! ## Forwarding and removing -/

/-- An edge after nodes hand their readers on: one that carries a value comes from the node that the
    readers are handed on to. -/
def forwardEdge (rho : NodeId → NodeId) (e : Edge) : Edge :=
  if e.role.isValue then ⟨rho e.source, e.target, e.role⟩ else e

section ForwardEdge

variable (rho : NodeId → NodeId) (e : Edge)

@[simp] theorem role_forwardEdge : (forwardEdge rho e).role = e.role := by
  unfold forwardEdge
  split <;> rfl

theorem forwardEdge_of_isValue (h : e.role.isValue = true) :
    forwardEdge rho e = ⟨rho e.source, e.target, e.role⟩ := if_pos h

theorem forwardEdge_of_not_isValue (h : ¬ e.role.isValue = true) : forwardEdge rho e = e := if_neg h

theorem forwardEdge_id : forwardEdge id e = e := by
  unfold forwardEdge
  split <;> rfl

theorem forwardEdge_forwardEdge (rho' : NodeId → NodeId) :
    forwardEdge rho' (forwardEdge rho e) = forwardEdge (rho' ∘ rho) e := by
  by_cases hvalue : e.role.isValue = true
  · rw [forwardEdge_of_isValue rho' _ (by simpa using hvalue), forwardEdge_of_isValue rho e hvalue,
      forwardEdge_of_isValue _ e hvalue]
    rfl
  · rw [forwardEdge_of_not_isValue rho e hvalue, forwardEdge_of_not_isValue _ e hvalue,
      forwardEdge_of_not_isValue _ e hvalue]

end ForwardEdge

section ReplaceUses

variable {old new : NodeId}

/-- Moving uses leaves each edge where it stood, or puts there what it is forwarded to if it is a use of
    the old node. -/
theorem forall₂_inputs_foldl_moveUse (hne : old ≠ new) (g : Graph) (id : NodeId) {edges : List Edge}
    (hedges : ∀ e ∈ edges, e.source = old ∧ e.role.isValue = true) :
    List.Forall₂ (fun x y => y = x ∨ (x.source = old ∧ y = forwardEdge (rename old new) x)) (g.inputs id)
      ((edges.foldl (moveUse new) g).inputs id) := by
  refine List.foldlRecOn (motive := fun t : Graph => List.Forall₂ _ (g.inputs id) (t.inputs id)) edges
    (moveUse new) (List.forall₂_same.2 fun x _ => .inl rfl) fun t ht e he => ?_
  obtain ⟨hsource, hvalue⟩ := hedges e he
  unfold moveUse
  dsimp only
  rw [inputs_modify_of_keep _ new id (Node.addOutput _) fun _ => rfl, inputs_redirectInput]
  split
  · refine forall₂_replaceFirst ht fun x hx => ?_
    rcases hx with rfl | ⟨hxsource, rfl⟩
    · refine .inr ⟨hsource, ?_⟩
      rw [forwardEdge_of_isValue _ _ hvalue, hsource]
      simp [rename]
    · -- An edge that was moved comes from the new node, so it is no use of the old one.
      rw [role_forwardEdge] at hvalue
      rw [forwardEdge_of_isValue _ _ hvalue] at hsource
      simp only [rename, if_pos hxsource] at hsource
      exact absurd hsource.symm hne
  · exact ht

/-- Every node reads the new node where it read the old one; all edges stand where they stood. -/
theorem Consistent.inputs_replaceUses {g g' : Graph} (hg : g.Consistent) (h : g.replaceUses old new = .ok g')
    (id : NodeId) : g'.inputs id = (g.inputs id).map (forwardEdge (rename old new)) := by
  have hg' := hg.replaceUses h
  obtain ⟨-, -, hne, -, hlaw⟩ := hg.replaceUses_law h
  obtain ⟨-, -, -, hresult⟩ := replaceUses_eq_ok h
  have huses : ∀ e ∈ (g.outputs old).filter (fun e => e.role.isValue), e.source = old ∧ e.role.isValue = true := by
    intro e he
    obtain ⟨he, hvalue⟩ := List.mem_filter.1 he
    exact ⟨hg.source_eq old e he, hvalue⟩
  have hmoved := forall₂_inputs_foldl_moveUse hne g id huses
  have hsame : g'.inputs id
      = (((g.outputs old).filter fun e => e.role.isValue).foldl (moveUse new) g).inputs id := by
    rw [hresult]
    exact inputs_modify_of_keep _ old id _ fun _ => rfl
  rw [← hsame] at hmoved
  have hall : List.Forall₂ (fun x y => forwardEdge (rename old new) x = y) (g.inputs id) (g'.inputs id) := by
    refine forall₂_imp_of_mem_mem hmoved fun x hx y hy hxy => ?_
    rcases hxy with rfl | ⟨-, rfl⟩
    · by_cases hvalue : y.role.isValue = true
      · -- No use of the old node is left.
        have hsource : y.source ≠ old := by
          intro hsource
          have hpos := multiplicity_pos.2 (hg'.mem_outputs hy)
          rw [hlaw, if_pos hsource, if_pos hvalue] at hpos
          exact absurd hpos (Nat.lt_irrefl 0)
        rw [forwardEdge_of_isValue _ _ hvalue, rename, if_neg hsource]
      · exact forwardEdge_of_not_isValue _ _ hvalue
    · rfl
  exact (List.forall₂_eq_eq_eq ▸ List.forall₂_map_left_iff.2 hall : _ = _).symm

end ReplaceUses

/-- Removing a node that no edge leaves keeps the edges that reach the others. -/
theorem Consistent.inputs_remove {g g' : Graph} (hg : g.Consistent) {id : NodeId} (hout : g.outputs id = [])
    (h : g.remove id = .ok g') {other : NodeId} (hother : other ≠ id) : g'.inputs other = g.inputs other := by
  obtain ⟨-, g₁, rfl, rfl⟩ := remove_eq_ok h
  have hkeep : ∀ {s : Graph} {edges : List Edge}, (∀ e ∈ edges, e.target = id) →
      (edges.foldl Graph.unlinkEdge s).inputs other = s.inputs other := by
    intro s edges htarget
    induction edges generalizing s with
    | nil => rfl
    | cons e rest ih =>
        rw [List.foldl_cons, ih fun x hx => htarget x (List.mem_cons_of_mem e hx), inputs_unlinkEdge,
          if_neg (htarget e List.mem_cons_self ▸ hother)]
  -- Taking edges away at the node leaves it without edges that leave it.
  have hnone : ((g.inputs id).foldl Graph.unlinkEdge g).outputs id = [] := by
    refine List.foldlRecOn (motive := fun t : Graph => t.outputs id = []) (g.inputs id) Graph.unlinkEdge hout
      fun t ht e _ => ?_
    rw [outputs_unlinkEdge, ht]
    split <;> rfl
  rw [inputs_drop, if_neg hother, hnone, List.foldl_nil, hkeep (hg.target_eq id)]

/-- Unlinking edges at a node leaves the edges between other nodes where they are. -/
theorem filter_outputs_foldl_unlinkEdge {id other : NodeId} (hother : other ≠ id) {edges : List Edge}
    (hedges : ∀ e ∈ edges, e.source = id ∨ e.target = id) (s : Graph) :
    ((edges.foldl Graph.unlinkEdge s).outputs other).filter (fun e => e.target ≠ id)
      = (s.outputs other).filter fun e => e.target ≠ id := by
  induction edges generalizing s with
  | nil => rfl
  | cons e rest ih =>
      rw [List.foldl_cons, ih (fun x hx => hedges x (List.mem_cons_of_mem e hx)), outputs_unlinkEdge]
      split
      · rename_i hsource
        have htarget := (hedges e List.mem_cons_self).resolve_left fun hid => hother (hsource.trans hid)
        exact filter_erase_of_not (by simpa using htarget) _
      · rfl

/-- Removing a node takes away the edges that lead to it and leaves the others in their order. -/
theorem Consistent.outputs_remove {g g' : Graph} (hg : g.Consistent) {id : NodeId} (h : g.remove id = .ok g')
    {other : NodeId} (hother : other ≠ id) :
    g'.outputs other = (g.outputs other).filter fun e => e.target ≠ id := by
  have hg' := hg.remove h
  have hgone := (hg.remove_law h).1.has_eq_false
  -- No edge leads to the node any more, so nothing is lost by asking only for those that do not.
  have hall : (g'.outputs other).filter (fun e => e.target ≠ id) = g'.outputs other := by
    refine List.filter_eq_self.2 fun e he => ?_
    have hlive := hg'.has_target he
    rw [decide_eq_true_eq]
    rintro rfl
    rw [hgone] at hlive
    cases hlive
  obtain ⟨-, g₁, rfl, hresult⟩ := remove_eq_ok h
  rw [← hall, hresult, outputs_drop, if_neg hother, filter_outputs_foldl_unlinkEdge hother,
    filter_outputs_foldl_unlinkEdge hother]
  · exact fun e he => .inr (hg.target_eq id e he)
  · exact fun e he => .inl ((hg.foldl_unlinkEdge _).source_eq id e he)

end Graph

end SeaOfNodes
