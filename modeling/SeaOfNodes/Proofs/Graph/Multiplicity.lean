/-
  SeaOfNodes.Proofs.Graph.Multiplicity

  What surgery does to the edges of a graph, as a multiset.  Each operation has one
  law that says which nodes there are afterwards and how often every edge is; where
  the edges stand in their lists is left out.  Parallel edges are why edges are
  counted: splicing a node onto one of them leaves the others.
-/
import SeaOfNodes.Proofs.Graph.Surgery

namespace SeaOfNodes.Graph

/-! ## Nodes -/

/-- Two graphs have the same nodes with the same operations and properties. -/
structure SameNodes (g g' : Graph) : Prop where
  size : g'.arena.size = g.arena.size
  has : ∀ id, g'.has id = g.has id
  op : ∀ id, g'.op id = g.op id
  props : ∀ id, g'.props id = g.props id

namespace SameNodes

theorem refl (g : Graph) : SameNodes g g := ⟨rfl, fun _ => rfl, fun _ => rfl, fun _ => rfl⟩

theorem trans {g g' g'' : Graph} (h : SameNodes g g') (h' : SameNodes g' g'') : SameNodes g g'' :=
  ⟨h'.size.trans h.size, fun id => (h'.has id).trans (h.has id), fun id => (h'.op id).trans (h.op id),
    fun id => (h'.props id).trans (h.props id)⟩

theorem modify (g : Graph) (id : NodeId) (f : Node → Node) (hop : ∀ n, (f n).op = n.op)
    (hprops : ∀ n, (f n).props = n.props) : SameNodes g (g.modify id f) :=
  ⟨size_arena_modify .., fun _ => has_modify .., fun other => op_modify g id other f hop,
    fun other => props_modify g id other f hprops⟩

theorem foldl {α : Type} {step : Graph → α → Graph} (hstep : ∀ g a, SameNodes g (step g a)) (g : Graph)
    (l : List α) : SameNodes g (l.foldl step g) := by
  induction l generalizing g with
  | nil => exact .refl g
  | cons a rest ih => exact (hstep g a).trans (ih (step g a))

end SameNodes

/-- A graph has the nodes of another but one. -/
structure Lacks (g g' : Graph) (id : NodeId) : Prop where
  size : g'.arena.size = g.arena.size
  has_id : g.has id = true
  has : ∀ other, g'.has other = true ↔ g.has other = true ∧ other ≠ id
  op : ∀ other, other ≠ id → g'.op other = g.op other
  props : ∀ other, other ≠ id → g'.props other = g.props other

theorem lacks_drop {g g' : Graph} (h : SameNodes g g') {id : NodeId} (hid : g.has id = true) :
    Lacks g (g'.drop id) id where
  size := by rw [size_arena_drop, h.size]
  has_id := hid
  has other := by
    unfold Graph.has
    rw [node?_drop]
    split
    · rename_i hother
      simp [hother]
    · rename_i hother
      have hhas := h.has other
      unfold Graph.has at hhas
      simp [hhas, hother]
  op other hother := by
    rw [← h.op other]
    unfold Graph.op
    rw [node?_drop, if_neg hother]
  props other hother := by
    rw [← h.props other]
    unfold Graph.props
    rw [node?_drop, if_neg hother]

theorem SameNodes.lacks {g g' g'' : Graph} {id : NodeId} (h : SameNodes g g') (h' : Lacks g' g'' id) :
    Lacks g g'' id where
  size := h'.size.trans h.size
  has_id := by rw [← h.has, h'.has_id]
  has other := by rw [h'.has, h.has]
  op other hother := by rw [h'.op other hother, h.op]
  props other hother := by rw [h'.props other hother, h.props]

theorem Lacks.has_eq_false {g g' : Graph} {id : NodeId} (h : Lacks g g' id) : g'.has id = false := by
  rw [← Bool.not_eq_true]
  intro hid
  exact ((h.has id).1 hid).2 rfl

/-- What was gone before is gone. -/
theorem Lacks.gone {g g' : Graph} {id other : NodeId} (h : Lacks g g' id) (hother : g.has other = false) :
    g'.has other = false := by
  rw [← Bool.not_eq_true, h.has, hother]
  exact fun hstays => Bool.false_ne_true hstays.1

theorem Lacks.ids_perm {g g' : Graph} {id : NodeId} (h : Lacks g g' id) : g.ids.Perm (id :: g'.ids) := by
  have hmem : ∀ other, other ∈ g'.ids ↔ g.has other = true ∧ other ≠ id := fun other => mem_ids.trans (h.has other)
  have hnodup : (id :: g'.ids).Nodup := List.nodup_cons.2 ⟨fun hid => ((hmem id).1 hid).2 rfl, g'.nodup_ids⟩
  refine (List.perm_ext_iff_of_nodup g.nodup_ids hnodup).2 fun other => ?_
  rw [List.mem_cons, hmem, mem_ids]
  by_cases hother : other = id
  · subst hother
    exact iff_of_true h.has_id (.inl rfl)
  · simp [hother]

theorem Lacks.size_eq {g g' : Graph} {id : NodeId} (h : Lacks g g' id) : g.size = g'.size + 1 := by
  rw [size_eq_length_ids, size_eq_length_ids, h.ids_perm.length_eq, List.length_cons]

/-! ## Counting -/

/-- How often an edge is in a graph. -/
def multiplicity (g : Graph) (e : Edge) : Nat := (g.outputs e.source).count e

theorem multiplicity_pos {g : Graph} {e : Edge} : 0 < g.multiplicity e ↔ e ∈ g.outputs e.source :=
  List.count_pos_iff

theorem Consistent.multiplicity_eq {g : Graph} (h : Consistent g) (e : Edge) :
    g.multiplicity e = (g.inputs e.target).count e := h.count_eq e

@[simp] theorem multiplicity_addNode (g : Graph) (op : Op) (props : Props) (e : Edge) :
    (g.addNode op props).2.multiplicity e = g.multiplicity e := by
  rw [multiplicity, outputs_addNode, multiplicity]

/-- Every edge carries control or a value. -/
def Unscheduled (g : Graph) : Prop :=
  ∀ e, 0 < g.multiplicity e → e.role.isControl = true ∨ e.role.isValue = true

/-- Values are read off nodes that have one. -/
def Valued (g : Graph) : Prop :=
  ∀ e, 0 < g.multiplicity e → e.role.isValue = true → g.producesValue e.source = true

section Modify

variable {g : Graph}

theorem multiplicity_modify_of_keep (id : NodeId) (f : Node → Node) (hkeep : ∀ n, (f n).outputs = n.outputs)
    (x : Edge) : (g.modify id f).multiplicity x = g.multiplicity x := by
  rw [multiplicity, outputs_modify_of_keep g id x.source f hkeep, multiplicity]

theorem multiplicity_addOutput {m : Edge} (hm : g.has m.source = true) (x : Edge) :
    (g.modify m.source (Node.addOutput m)).multiplicity x = g.multiplicity x + [m].count x := by
  rw [multiplicity, outputs_modify g _ _ _ (· ++ [m]) (fun _ => rfl) hm, multiplicity]
  split
  · rw [List.count_append]
  · rename_i hx
    rw [count_singleton_eq_zero fun hxm => hx (by rw [hxm]), Nat.add_zero]

theorem multiplicity_redirectOutput {e m : Edge} (he : e ∈ g.outputs e.source) (hm : m.source = e.source)
    (x : Edge) : (g.modify e.source (Node.redirectOutput e m)).multiplicity x + [e].count x
      = g.multiplicity x + [m].count x := by
  rw [multiplicity, outputs_modify g _ _ _ (replaceFirst e m) (fun _ => rfl) (has_of_mem_outputs he), multiplicity]
  split
  · rename_i hx
    rw [hx]
    exact count_replaceFirst he x
  · rename_i hx
    rw [count_singleton_eq_zero fun hxe => hx (by rw [hxe]),
      count_singleton_eq_zero fun hxm => hx (by rw [hxm, hm])]

theorem multiplicity_linkEdge {e : Edge} (hsource : g.has e.source = true) (x : Edge) :
    (g.linkEdge e).multiplicity x = g.multiplicity x + [e].count x := by
  unfold linkEdge
  rw [multiplicity_modify_of_keep e.target (Node.addInput e) fun _ => rfl, multiplicity_addOutput hsource]

theorem multiplicity_unlinkEdge (g : Graph) (e x : Edge) :
    (g.unlinkEdge e).multiplicity x = g.multiplicity x - [e].count x := by
  rw [multiplicity, outputs_unlinkEdge, multiplicity]
  split
  · exact count_erase_singleton ..
  · rename_i hx
    rw [count_singleton_eq_zero fun hxe => hx (by rw [hxe]), Nat.sub_zero]

theorem multiplicity_foldl_unlinkEdge (g : Graph) (edges : List Edge) (x : Edge) :
    (edges.foldl unlinkEdge g).multiplicity x = g.multiplicity x - edges.count x := by
  induction edges generalizing g with
  | nil => rfl
  | cons e rest ih =>
      have hcons := count_cons_singleton e x rest
      rw [List.foldl_cons, ih, multiplicity_unlinkEdge]
      omega

end Modify

/-- A list mapped where one member at most goes to a given one. -/
theorem count_map_eq_count {α β : Type} [DecidableEq α] [DecidableEq β] {f : α → β} {l : List α} {x : β} {y : α}
    (h : ∀ a ∈ l, f a = x ↔ a = y) : (l.map f).count x = l.count y := by
  rw [List.count, List.countP_map, List.count]
  refine List.countP_congr fun a ha => ?_
  simpa using h a ha

/-! ## Linking, splicing and removing -/

theorem sameNodes_linkEdge (g : Graph) (e : Edge) : SameNodes g (g.linkEdge e) :=
  ⟨size_arena_linkEdge g e, has_linkEdge g e, op_linkEdge g e, props_linkEdge g e⟩

theorem connect_law {g g' : Graph} {e : Edge} (h : g.connect e = .ok g') :
    g.has e.source = true ∧ g.has e.target = true ∧ SameNodes g g' ∧
      ∀ x, g'.multiplicity x = g.multiplicity x + [e].count x := by
  obtain ⟨hsource, htarget, rfl⟩ := connect_eq_ok.1 h
  exact ⟨hsource, htarget, sameNodes_linkEdge g e, multiplicity_linkEdge hsource⟩

/-- Splicing puts two edges in the place of one instance of an edge. -/
theorem interdict_law {g g' : Graph} {e : Edge} {mid : NodeId} (h : g.interdict e mid = .ok g') :
    g.has mid = true ∧ 0 < g.multiplicity e ∧ SameNodes g g' ∧
      ∀ x, g'.multiplicity x + [e].count x
        = g.multiplicity x + [spliceHead e mid].count x + [spliceTail e mid].count x := by
  obtain ⟨hlive, hsource, -, rfl⟩ := interdict_eq_ok h
  let g1 := g.modify e.source (Node.redirectOutput e (spliceHead e mid))
  let g2 := g1.modify e.target (Node.redirectInput e (spliceTail e mid))
  let g3 := g2.modify mid (Node.addInput (spliceHead e mid))
  have hnodes1 : SameNodes g g1 := .modify g e.source (Node.redirectOutput e (spliceHead e mid)) (fun _ => rfl)
    fun _ => rfl
  have hnodes2 : SameNodes g1 g2 := .modify g1 e.target (Node.redirectInput e (spliceTail e mid)) (fun _ => rfl)
    fun _ => rfl
  have hnodes3 : SameNodes g2 g3 := .modify g2 mid (Node.addInput (spliceHead e mid)) (fun _ => rfl) fun _ => rfl
  have hnodes : SameNodes g g3 := (hnodes1.trans hnodes2).trans hnodes3
  refine ⟨hlive, multiplicity_pos.2 hsource, hnodes.trans (.modify g3 mid
    (Node.addOutput (spliceTail e mid)) (fun _ => rfl) fun _ => rfl), fun x => ?_⟩
  -- Edges are counted where they leave, so the two changes of inputs do not count.
  have h1 : g1.multiplicity x + _ = _ := multiplicity_redirectOutput (m := spliceHead e mid) hsource rfl x
  have h2 : g2.multiplicity x = g1.multiplicity x :=
    multiplicity_modify_of_keep e.target (Node.redirectInput e (spliceTail e mid)) (fun _ => rfl) x
  have h3 : g3.multiplicity x = g2.multiplicity x :=
    multiplicity_modify_of_keep mid (Node.addInput (spliceHead e mid)) (fun _ => rfl) x
  have h4 : (g3.modify mid (Node.addOutput (spliceTail e mid))).multiplicity x = _ :=
    multiplicity_addOutput (m := spliceTail e mid) (by rw [spliceTail, hnodes.has]; exact hlive) x
  change (g3.modify mid (Node.addOutput (spliceTail e mid))).multiplicity x + _ = _
  omega

theorem sameNodes_unlinkEdge (g : Graph) (e : Edge) : SameNodes g (g.unlinkEdge e) :=
  (SameNodes.modify g e.source (Node.eraseOutput e) (fun _ => rfl) fun _ => rfl).trans
    (.modify _ e.target (Node.eraseInput e) (fun _ => rfl) fun _ => rfl)

/-- With a node go the edges at it. -/
theorem Consistent.remove_law {g g' : Graph} (hg : g.Consistent) {id : NodeId} (h : g.remove id = .ok g') :
    Lacks g g' id ∧ ∀ x, g'.multiplicity x
      = if x.source = id ∨ x.target = id then 0 else g.multiplicity x := by
  obtain ⟨hlive, g1, hg1, rfl⟩ := remove_eq_ok h
  let g2 := (g1.outputs id).foldl Graph.unlinkEdge g1
  have hnodes1 : SameNodes g g1 := hg1 ▸ SameNodes.foldl sameNodes_unlinkEdge g _
  have hnodes : SameNodes g g2 := hnodes1.trans (SameNodes.foldl sameNodes_unlinkEdge g1 _)
  refine ⟨lacks_drop hnodes hlive, fun x => ?_⟩
  change (g2.drop id).multiplicity x = _
  by_cases hsource : x.source = id
  · rw [if_pos (.inl hsource), multiplicity, outputs_drop, if_pos hsource]
    rfl
  · have h1 : g1.multiplicity x = g.multiplicity x - (g.inputs id).count x :=
      hg1 ▸ multiplicity_foldl_unlinkEdge ..
    have h2 : g2.multiplicity x = g1.multiplicity x - (g1.outputs id).count x := multiplicity_foldl_unlinkEdge ..
    -- An edge from elsewhere is taken away with the inputs, once for each that there is.
    have hout : (g1.outputs id).count x = 0 := by
      refine List.count_eq_zero.2 fun hmem => hsource ?_
      exact (hg1 ▸ hg.foldl_unlinkEdge (g.inputs id)).source_eq id x hmem
    rw [multiplicity, outputs_drop, if_neg hsource, ← multiplicity, h2, h1, hout]
    by_cases htarget : x.target = id
    · have hcount := hg.multiplicity_eq x
      rw [htarget] at hcount
      rw [if_pos (.inr htarget)]
      omega
    · have hin : (g.inputs id).count x = 0 :=
        List.count_eq_zero.2 fun hmem => htarget (hg.target_eq id x hmem)
      rw [if_neg (not_or.2 ⟨hsource, htarget⟩), hin]
      rfl

/-! ## Moving the uses of a node -/

/-- Moving uses adds their edges to the new node; the old one still has them. -/
theorem multiplicity_foldl_moveUse {new : NodeId} {g : Graph} (hnew : g.has new = true) (edges : List Edge)
    (x : Edge) : (edges.foldl (moveUse new) g).multiplicity x
      = g.multiplicity x + (edges.map fun e => (⟨new, e.target, e.role⟩ : Edge)).count x := by
  induction edges generalizing g with
  | nil => rfl
  | cons e rest ih =>
      let m : Edge := ⟨new, e.target, e.role⟩
      let g1 := g.modify e.target (Node.redirectInput e m)
      have hlive : g1.has m.source = true := by
        rw [has_modify]
        exact hnew
      have hone : (moveUse new g e).multiplicity x = g.multiplicity x + [m].count x := by
        have hkeep : g1.multiplicity x = g.multiplicity x :=
          multiplicity_modify_of_keep e.target (Node.redirectInput e m) (fun _ => rfl) x
        rw [← hkeep]
        exact multiplicity_addOutput hlive x
      have hnext : (moveUse new g e).has new = true := by
        unfold moveUse
        rw [has_modify, has_modify]
        exact hnew
      have hcons := count_cons_singleton m x (rest.map fun e => ⟨new, e.target, e.role⟩)
      rw [List.foldl_cons, ih hnext, hone, List.map_cons, hcons, Nat.add_assoc]

theorem sameNodes_moveUse (new : NodeId) (g : Graph) (e : Edge) : SameNodes g (moveUse new g e) :=
  (SameNodes.modify g e.target (Node.redirectInput e ⟨new, e.target, e.role⟩) (fun _ => rfl) fun _ => rfl).trans
    (.modify _ new (Node.addOutput ⟨new, e.target, e.role⟩) (fun _ => rfl) fun _ => rfl)

/-- The moved uses of a node are its uses with the source changed. -/
theorem Consistent.count_uses_moved {g : Graph} (hg : g.Consistent) (old new : NodeId) (x : Edge) :
    (((g.outputs old).filter fun e => e.role.isValue).map fun e => (⟨new, e.target, e.role⟩ : Edge)).count x
      = if x.source = new ∧ x.role.isValue = true then g.multiplicity ⟨old, x.target, x.role⟩ else 0 := by
  split
  · rename_i hmoved
    obtain ⟨hsource, hvalue⟩ := hmoved
    have hfilter := List.count_filter (l := g.outputs old) (a := ⟨old, x.target, x.role⟩)
      (p := fun e : Edge => e.role.isValue) hvalue
    rw [multiplicity, ← hfilter]
    refine count_map_eq_count fun e he => ?_
    have hold := hg.source_eq old e (List.mem_of_mem_filter he)
    obtain ⟨source, target, role⟩ := e
    obtain ⟨source', target', role'⟩ := x
    simp only at hold hsource
    simp [hold, hsource]
  · rename_i hmoved
    refine List.count_eq_zero.2 fun hmem => hmoved ?_
    obtain ⟨e, he, rfl⟩ := List.mem_map.1 hmem
    exact ⟨rfl, (List.mem_filter.1 he).2⟩

/-- Forwarding takes the uses of a node to another, and leaves its other edges. -/
theorem Consistent.replaceUses_law {g g' : Graph} (hg : g.Consistent) {old new : NodeId}
    (h : g.replaceUses old new = .ok g') :
    g.has old = true ∧ g.has new = true ∧ old ≠ new ∧ SameNodes g g' ∧
      ∀ x, g'.multiplicity x =
        if x.source = old then (if x.role.isValue then 0 else g.multiplicity x)
        else g.multiplicity x +
          if x.source = new ∧ x.role.isValue = true then g.multiplicity ⟨old, x.target, x.role⟩ else 0 := by
  obtain ⟨hold, hnew, hne, rfl⟩ := replaceUses_eq_ok h
  have hnodes := SameNodes.foldl (sameNodes_moveUse new) g ((g.outputs old).filter fun e => e.role.isValue)
  have hcount := multiplicity_foldl_moveUse hnew ((g.outputs old).filter fun e => e.role.isValue)
  generalize ((g.outputs old).filter fun e => e.role.isValue).foldl (moveUse new) g = moved at hnodes hcount
  refine ⟨hold, hnew, hne, hnodes.trans (.modify moved old _ (fun _ => rfl) fun _ => rfl), fun x => ?_⟩
  rw [multiplicity, outputs_modify moved old x.source _ (fun _ => (g.outputs old).filter fun e => !e.role.isValue)
    (fun _ => rfl) (by rw [hnodes.has]; exact hold)]
  by_cases hx : x.source = old
  · rw [if_pos hx, if_pos hx, multiplicity, hx]
    split
    · rename_i hvalue
      refine List.count_eq_zero.2 fun hmem => ?_
      simp [hvalue] at hmem
    · rename_i hvalue
      exact List.count_filter (by simpa using hvalue)
  · rw [if_neg hx, if_neg hx, ← multiplicity, hcount, hg.count_uses_moved]

/-! ## Putting a node in the place of another -/

section Replace

variable {old new : NodeId}

theorem sameNodes_moveInput (old new : NodeId) (g : Graph) (e : Edge) : SameNodes g (moveInput old new g e) := by
  unfold moveInput
  dsimp only
  split
  · exact .modify g new (Node.addInput _) (fun _ => rfl) fun _ => rfl
  · exact (SameNodes.modify g e.source (Node.redirectOutput e _) (fun _ => rfl) fun _ => rfl).trans
      (.modify _ new (Node.addInput _) (fun _ => rfl) fun _ => rfl)

theorem sameNodes_moveOutput (old new : NodeId) (g : Graph) (e : Edge) : SameNodes g (moveOutput old new g e) := by
  unfold moveOutput
  dsimp only
  split
  · exact .modify g new (Node.addOutput _) (fun _ => rfl) fun _ => rfl
  · exact (SameNodes.modify g e.target (Node.redirectInput e _) (fun _ => rfl) fun _ => rfl).trans
      (.modify _ new (Node.addOutput _) (fun _ => rfl) fun _ => rfl)

/-- The new node gets an edge for each that is moved to it. -/
theorem inputs_foldl_moveInput {g : Graph} (hnew : g.has new = true) (edges : List Edge) :
    (edges.foldl (moveInput old new) g).inputs new
      = g.inputs new ++ edges.map fun e => ⟨rename old new e.source, new, e.role⟩ := by
  induction edges generalizing g with
  | nil => simp
  | cons e rest ih =>
      have hlive : (moveInput old new g e).has new = true := by
        rw [(sameNodes_moveInput old new g e).has]
        exact hnew
      have hone : (moveInput old new g e).inputs new
          = g.inputs new ++ [⟨rename old new e.source, new, e.role⟩] := by
        unfold moveInput
        dsimp only
        split
        · rw [inputs_modify g new new _ (· ++ [_]) (fun _ => rfl) hnew, if_pos rfl]
        · rw [inputs_modify _ new new _ (· ++ [_]) (fun _ => rfl) (by rw [has_modify]; exact hnew), if_pos rfl,
            inputs_modify_of_keep g e.source new (Node.redirectOutput e _) fun _ => rfl]
      rw [List.foldl_cons, ih hlive, hone, List.map_cons, List.append_assoc, List.singleton_append]

theorem outputs_foldl_moveOutput {g : Graph} (hnew : g.has new = true) (edges : List Edge) :
    (edges.foldl (moveOutput old new) g).outputs new
      = g.outputs new ++ edges.map fun e => ⟨new, rename old new e.target, e.role⟩ := by
  induction edges generalizing g with
  | nil => simp
  | cons e rest ih =>
      have hlive : (moveOutput old new g e).has new = true := by
        rw [(sameNodes_moveOutput old new g e).has]
        exact hnew
      have hone : (moveOutput old new g e).outputs new
          = g.outputs new ++ [⟨new, rename old new e.target, e.role⟩] := by
        unfold moveOutput
        dsimp only
        split
        · rw [outputs_modify g new new _ (· ++ [_]) (fun _ => rfl) hnew, if_pos rfl]
        · rw [outputs_modify _ new new _ (· ++ [_]) (fun _ => rfl) (by rw [has_modify]; exact hnew), if_pos rfl,
            outputs_modify_of_keep g e.target new (Node.redirectInput e _) fun _ => rfl]
      rw [List.foldl_cons, ih hlive, hone, List.map_cons, List.append_assoc, List.singleton_append]

end Replace

end SeaOfNodes.Graph
