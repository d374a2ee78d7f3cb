/-
  SeaOfNodes.Proofs.Graph.Surgery

  Every operation on graphs keeps the representation invariant.  An elementary
  change at one node shifts the excess of the edges it stores or takes away; an
  operation is a sequence of such changes whose shifts cancel.  The laws are
  stated with `[e].count x`, which is one at `e` and zero elsewhere, so that the
  shifts of a whole loop add up to the count of a list.
-/
import SeaOfNodes.Proofs.Except
import SeaOfNodes.Proofs.Graph.Consistent
import Mathlib.Data.List.Perm.Basic

namespace SeaOfNodes.Graph

/-! ## Lists of edges -/

theorem mem_replaceFirst {α : Type} [DecidableEq α] {old new x : α} {l : List α}
    (h : x ∈ replaceFirst old new l) : x ∈ l ∨ x = new := by
  induction l with
  | nil => cases h
  | cons y rest ih =>
      rw [replaceFirst] at h
      split at h
      · rcases List.mem_cons.1 h with rfl | h
        · exact .inr rfl
        · exact .inl (List.mem_cons_of_mem y h)
      · rcases List.mem_cons.1 h with rfl | h
        · exact .inl List.mem_cons_self
        · exact (ih h).imp (List.mem_cons_of_mem y) id

theorem count_cons_singleton {α : Type} [DecidableEq α] (y x : α) (rest : List α) :
    (y :: rest).count x = [y].count x + rest.count x := by
  rw [← List.singleton_append, List.count_append]

theorem count_replaceFirst {α : Type} [DecidableEq α] {old new : α} {l : List α} (h : old ∈ l) (x : α) :
    (replaceFirst old new l).count x + [old].count x = l.count x + [new].count x := by
  induction l with
  | nil => cases h
  | cons y rest ih =>
      rw [replaceFirst]
      split
      · rename_i hy
        subst hy
        have hnew := count_cons_singleton new x rest
        have hold := count_cons_singleton y x rest
        omega
      · rename_i hy
        have hrest : old ∈ rest := (List.mem_cons.1 h).resolve_left fun h => hy h.symm
        have hkept := ih hrest
        have hold := count_cons_singleton y x rest
        have hnew := count_cons_singleton y x (replaceFirst old new rest)
        omega

theorem count_singleton_eq_zero {α : Type} [DecidableEq α] {e x : α} (h : x ≠ e) : [e].count x = 0 := by
  rw [List.count_eq_zero, List.mem_singleton]
  exact h

/-! ## Elementary changes -/

section Elementary

variable {g : Graph}

theorem excess_modify_inputs {id : NodeId} (f : Node → Node) (change : List Edge → List Edge)
    (hf : ∀ n, (f n).inputs = change n.inputs) (hkeep : ∀ n, (f n).outputs = n.outputs)
    (hid : g.has id = true) (x : Edge) :
    (g.modify id f).excess x = g.excess x
      - if x.target = id then ((change (g.inputs id)).count x : Int) - (g.inputs id).count x else 0 := by
  unfold excess
  rw [outputs_modify_of_keep g id _ f hkeep, inputs_modify g id _ f change hf hid]
  split
  · rename_i h
    rw [h]
    omega
  · omega

theorem excess_modify_outputs {id : NodeId} (f : Node → Node) (change : List Edge → List Edge)
    (hf : ∀ n, (f n).outputs = change n.outputs) (hkeep : ∀ n, (f n).inputs = n.inputs)
    (hid : g.has id = true) (x : Edge) :
    (g.modify id f).excess x = g.excess x
      + if x.source = id then ((change (g.outputs id)).count x : Int) - (g.outputs id).count x else 0 := by
  unfold excess
  rw [inputs_modify_of_keep g id _ f hkeep, outputs_modify g id _ f change hf hid]
  split
  · rename_i h
    rw [h]
    omega
  · omega

theorem excess_addInput {m : Edge} (hm : g.has m.target = true) (x : Edge) :
    (g.modify m.target (Node.addInput m)).excess x = g.excess x - [m].count x := by
  rw [excess_modify_inputs (Node.addInput m) (· ++ [m]) (fun _ => rfl) (fun _ => rfl) hm]
  split
  · rw [List.count_append]
    omega
  · rename_i h
    rw [count_singleton_eq_zero fun hxm => h (by rw [hxm])]
    omega

theorem excess_addOutput {m : Edge} (hm : g.has m.source = true) (x : Edge) :
    (g.modify m.source (Node.addOutput m)).excess x = g.excess x + [m].count x := by
  rw [excess_modify_outputs (Node.addOutput m) (· ++ [m]) (fun _ => rfl) (fun _ => rfl) hm]
  split
  · rw [List.count_append]
    omega
  · rename_i h
    rw [count_singleton_eq_zero fun hxm => h (by rw [hxm])]
    omega

theorem excess_redirectInput {e m : Edge} (he : e ∈ g.inputs e.target) (hm : m.target = e.target) (x : Edge) :
    (g.modify e.target (Node.redirectInput e m)).excess x = g.excess x + [e].count x - [m].count x := by
  rw [excess_modify_inputs (Node.redirectInput e m) (replaceFirst e m) (fun _ => rfl) (fun _ => rfl)
    (has_of_mem_inputs he)]
  split
  · have hcount : (replaceFirst e m _).count x + [e].count x = _ := count_replaceFirst he x
    omega
  · rename_i h
    rw [count_singleton_eq_zero fun hxe => h (by rw [hxe]),
      count_singleton_eq_zero fun hxm => h (by rw [hxm, hm])]
    omega

theorem excess_redirectOutput {e m : Edge} (he : e ∈ g.outputs e.source) (hm : m.source = e.source) (x : Edge) :
    (g.modify e.source (Node.redirectOutput e m)).excess x = g.excess x - [e].count x + [m].count x := by
  rw [excess_modify_outputs (Node.redirectOutput e m) (replaceFirst e m) (fun _ => rfl) (fun _ => rfl)
    (has_of_mem_outputs he)]
  split
  · have hcount : (replaceFirst e m _).count x + [e].count x = _ := count_replaceFirst he x
    omega
  · rename_i h
    rw [count_singleton_eq_zero fun hxe => h (by rw [hxe]),
      count_singleton_eq_zero fun hxm => h (by rw [hxm, hm])]
    omega

/-- A change of the inputs of a node that stores only edges to it. -/
theorem Filed.modify_inputs (h : Filed g) {id : NodeId} {f : Node → Node}
    (hf : ∀ n, ∀ e ∈ (f n).inputs, e ∈ n.inputs ∨ e.target = id) (hkeep : ∀ n, (f n).outputs = n.outputs) :
    Filed (g.modify id f) where
  source_eq other e he := by
    rw [outputs_modify_of_keep g id other f hkeep] at he
    exact h.source_eq other e he
  target_eq other e he := by
    unfold inputs at he
    rw [node?_modify] at he
    split at he
    · rename_i hid
      cases hn : g.node? other with
      | none => simp [hn] at he
      | some n =>
          rw [hn] at he
          rcases hf n e he with he | he
          · exact h.target_eq other e (by simpa [inputs, hn] using he)
          · rw [he, hid]
    · exact h.target_eq other e he

theorem Filed.modify_outputs (h : Filed g) {id : NodeId} {f : Node → Node}
    (hf : ∀ n, ∀ e ∈ (f n).outputs, e ∈ n.outputs ∨ e.source = id) (hkeep : ∀ n, (f n).inputs = n.inputs) :
    Filed (g.modify id f) where
  target_eq other e he := by
    rw [inputs_modify_of_keep g id other f hkeep] at he
    exact h.target_eq other e he
  source_eq other e he := by
    unfold outputs at he
    rw [node?_modify] at he
    split at he
    · rename_i hid
      cases hn : g.node? other with
      | none => simp [hn] at he
      | some n =>
          rw [hn] at he
          rcases hf n e he with he | he
          · exact h.source_eq other e (by simpa [outputs, hn] using he)
          · rw [he, hid]
    · exact h.source_eq other e he

theorem Filed.addInput (h : Filed g) (m : Edge) : Filed (g.modify m.target (Node.addInput m)) :=
  h.modify_inputs (fun n e he => (List.mem_append.1 he).imp_right fun he => by
    rw [List.mem_singleton.1 he]) fun _ => rfl

theorem Filed.addOutput (h : Filed g) (m : Edge) : Filed (g.modify m.source (Node.addOutput m)) :=
  h.modify_outputs (fun n e he => (List.mem_append.1 he).imp_right fun he => by
    rw [List.mem_singleton.1 he]) fun _ => rfl

theorem Filed.redirectInput (h : Filed g) {e m : Edge} (hm : m.target = e.target) :
    Filed (g.modify e.target (Node.redirectInput e m)) :=
  h.modify_inputs (fun n x hx => (mem_replaceFirst hx).imp_right fun hx => by rw [hx, hm]) fun _ => rfl

theorem Filed.redirectOutput (h : Filed g) {e m : Edge} (hm : m.source = e.source) :
    Filed (g.modify e.source (Node.redirectOutput e m)) :=
  h.modify_outputs (fun n x hx => (mem_replaceFirst hx).imp_right fun hx => by rw [hx, hm]) fun _ => rfl

end Elementary

theorem requireEdge_eq_ok {g : Graph} {e : Edge} (h : g.requireEdge e = .ok ()) :
    e ∈ g.outputs e.source ∧ e ∈ g.inputs e.target := by
  rw [requireEdge] at h
  obtain ⟨source, hsource, h⟩ := bind_eq_ok.1 h
  obtain ⟨target, htarget, h⟩ := bind_eq_ok.1 h
  rw [require_eq_ok] at hsource htarget
  split at h
  · rename_i hmem
    simpa [outputs, inputs, hsource, htarget] using hmem
  · cases h

theorem has_of_require {g : Graph} {id : NodeId} {n : Node} (h : g.require id = .ok n) :
    g.has id = true ∧ g.inputs id = n.inputs ∧ g.outputs id = n.outputs := by
  rw [require_eq_ok] at h
  exact ⟨has_iff.2 ⟨n, h⟩, by simp [inputs, h], by simp [outputs, h]⟩

/-! ## Splicing a node onto an edge -/

/-- The edge that brings a spliced node what the edge it stands on carried. -/
def spliceHead (e : Edge) (mid : NodeId) : Edge :=
  ⟨e.source, mid, if e.role.isControl then .control else .value⟩

/-- The edge that a spliced node hands on under the old role. -/
def spliceTail (e : Edge) (mid : NodeId) : Edge := ⟨mid, e.target, e.role⟩

/-- Splicing needs the node and the edge, and makes four changes. -/
theorem interdict_eq_ok {g g' : Graph} {e : Edge} {mid : NodeId} (h : g.interdict e mid = .ok g') :
    g.has mid = true ∧ e ∈ g.outputs e.source ∧ e ∈ g.inputs e.target ∧
      g' = (((g.modify e.source (Node.redirectOutput e (spliceHead e mid))).modify e.target
        (Node.redirectInput e (spliceTail e mid))).modify mid (Node.addInput (spliceHead e mid))).modify mid
        (Node.addOutput (spliceTail e mid)) := by
  rw [Graph.interdict] at h
  obtain ⟨n, hmid, h⟩ := bind_eq_ok.1 h
  obtain ⟨_, hedge, h⟩ := bind_eq_ok.1 h
  obtain ⟨hsource, htarget⟩ := requireEdge_eq_ok hedge
  rw [pure_eq_ok] at h
  exact ⟨(has_of_require hmid).1, hsource, htarget, h.symm⟩

theorem Consistent.interdict {g g' : Graph} (h : Consistent g) {e : Edge} {mid : NodeId}
    (hsplice : g.interdict e mid = .ok g') : Consistent g' := by
  obtain ⟨hlive, hsource, htarget, rfl⟩ := interdict_eq_ok hsplice
  -- The four changes, one after the other; the target still has the edge after the first.
  let head : Edge := spliceHead e mid
  let tail : Edge := spliceTail e mid
  let g1 := g.modify e.source (Node.redirectOutput e head)
  let g2 := g1.modify e.target (Node.redirectInput e tail)
  let g3 := g2.modify head.target (Node.addInput head)
  have hkept : e ∈ g1.inputs e.target := by
    rw [inputs_modify_of_keep g e.source e.target (Node.redirectOutput e head) fun _ => rfl]
    exact htarget
  have hlive2 : g2.has head.target = true := by
    rw [has_modify, has_modify]
    exact hlive
  have hlive3 : g3.has tail.source = true := by
    rw [has_modify]
    exact hlive2
  have hf1 : Filed g1 := h.toFiled.redirectOutput (m := head) rfl
  have hf2 : Filed g2 := hf1.redirectInput (m := tail) rfl
  have hf3 : Filed g3 := hf2.addInput head
  refine ⟨hf3.addOutput tail, fun x => ?_⟩
  have hx0 := h.excess_eq x
  have hx1 : g1.excess x = _ := excess_redirectOutput (m := head) hsource rfl x
  have hx2 : g2.excess x = _ := excess_redirectInput (m := tail) hkept rfl x
  have hx3 : g3.excess x = _ := excess_addInput hlive2 x
  have hx4 : (g3.modify tail.source (Node.addOutput tail)).excess x = _ := excess_addOutput hlive3 x
  change (g3.modify tail.source (Node.addOutput tail)).excess x = 0
  omega

/-! ## Removing a node -/

/-- Removing a node takes the edges that reach it, then those that leave it, then the
    node. -/
theorem remove_eq_ok {g g' : Graph} {id : NodeId} (h : g.remove id = .ok g') :
    g.has id = true ∧ ∃ g₁, g₁ = (g.inputs id).foldl Graph.unlinkEdge g ∧
      g' = ((g₁.outputs id).foldl Graph.unlinkEdge g₁).drop id := by
  rw [Graph.remove] at h
  obtain ⟨n, hid, h⟩ := bind_eq_ok.1 h
  rw [pure_eq_ok] at h
  exact ⟨(has_of_require hid).1, _, rfl, h.symm⟩

theorem count_erase_singleton {α : Type} [DecidableEq α] (l : List α) (e x : α) :
    (l.erase e).count x = l.count x - [e].count x := by
  rw [List.count_erase, List.count_singleton]

theorem inputs_modify_of_ne {g : Graph} {id other : NodeId} (h : other ≠ id) (f : Node → Node) :
    (g.modify id f).inputs other = g.inputs other := by
  unfold inputs
  rw [node?_modify, if_neg h]

theorem outputs_modify_of_ne {g : Graph} {id other : NodeId} (h : other ≠ id) (f : Node → Node) :
    (g.modify id f).outputs other = g.outputs other := by
  unfold outputs
  rw [node?_modify, if_neg h]

section Unlink

variable (g : Graph) (e : Edge)

@[simp] theorem has_unlinkEdge (id : NodeId) : (g.unlinkEdge e).has id = g.has id := by simp [unlinkEdge]

theorem inputs_unlinkEdge (id : NodeId) : (g.unlinkEdge e).inputs id
    = if id = e.target then (g.inputs id).erase e else g.inputs id := by
  cases hlive : g.has e.target with
  | true =>
      unfold unlinkEdge
      rw [inputs_modify _ _ _ _ (·.erase e) (fun _ => rfl) (by simpa using hlive),
        inputs_modify_of_keep _ _ _ (Node.eraseOutput e) fun _ => rfl]
  | false =>
      by_cases hid : id = e.target
      · have hdead : g.has id = false := by rw [hid]; exact hlive
        rw [if_pos hid, inputs_eq_nil hdead, inputs_eq_nil (by simpa using hdead)]
        rfl
      · unfold inputs unlinkEdge
        rw [if_neg hid, node?_modify, if_neg hid]
        exact getD_node?_modify g e.source id _ Node.inputs [] fun _ => rfl

theorem outputs_unlinkEdge (id : NodeId) : (g.unlinkEdge e).outputs id
    = if id = e.source then (g.outputs id).erase e else g.outputs id := by
  unfold unlinkEdge
  rw [outputs_modify_of_keep _ _ _ (Node.eraseInput e) fun _ => rfl]
  cases hlive : g.has e.source with
  | true => exact outputs_modify _ _ _ _ (·.erase e) (fun _ => rfl) hlive
  | false =>
      by_cases hid : id = e.source
      · have hdead : g.has id = false := by rw [hid]; exact hlive
        rw [if_pos hid, outputs_eq_nil hdead, outputs_eq_nil (by simpa using hdead)]
        rfl
      · unfold outputs
        rw [if_neg hid, node?_modify, if_neg hid]

end Unlink

/-- Unlinking takes an edge away at both ends, or at none. -/
theorem Consistent.unlinkEdge {g : Graph} (h : Consistent g) (e : Edge) : Consistent (g.unlinkEdge e) where
  source_eq id x hx := by
    rw [outputs_unlinkEdge] at hx
    split at hx
    · exact h.source_eq id x (List.mem_of_mem_erase hx)
    · exact h.source_eq id x hx
  target_eq id x hx := by
    rw [inputs_unlinkEdge] at hx
    split at hx
    · exact h.target_eq id x (List.mem_of_mem_erase hx)
    · exact h.target_eq id x hx
  excess_eq x := by
    have hcount := h.count_eq x
    rw [excess, outputs_unlinkEdge, inputs_unlinkEdge]
    by_cases hx : x = e
    · subst hx
      rw [if_pos rfl, if_pos rfl, count_erase_singleton, count_erase_singleton]
      omega
    · have hkeep : ∀ (l : List Edge) (here : Prop) [Decidable here],
          (if here then l.erase e else l).count x = l.count x := by
        intro l here _
        split
        · rw [count_erase_singleton, count_singleton_eq_zero hx, Nat.sub_zero]
        · rfl
      rw [hkeep, hkeep]
      omega

theorem Consistent.disconnect {g g' : Graph} (h : g.Consistent) {e : Edge} (hdisconnect : g.disconnect e = .ok g') :
    g'.Consistent := by
  obtain ⟨_, -, hg'⟩ := bind_eq_ok.1 hdisconnect
  cases hg'
  exact h.unlinkEdge e

/-- Unlinking the edges of a list, in order. -/
theorem Consistent.foldl_unlinkEdge {g : Graph} (h : Consistent g) (edges : List Edge) :
    Consistent (edges.foldl Graph.unlinkEdge g) := by
  induction edges generalizing g with
  | nil => exact h
  | cons e rest ih => exact ih (h.unlinkEdge e)

theorem inputs_foldl_unlinkEdge {g : Graph} {id : NodeId} {edges : List Edge}
    (htarget : ∀ e ∈ edges, e.target = id) :
    (edges.foldl unlinkEdge g).inputs id = (g.inputs id).diff edges := by
  induction edges generalizing g with
  | nil => rfl
  | cons e rest ih =>
      rw [List.foldl_cons, ih fun x hx => htarget x (List.mem_cons_of_mem e hx), inputs_unlinkEdge,
        if_pos (htarget e List.mem_cons_self).symm, List.diff_cons]

theorem outputs_foldl_unlinkEdge {g : Graph} {id : NodeId} {edges : List Edge}
    (hsource : ∀ e ∈ edges, e.source = id) :
    (edges.foldl unlinkEdge g).outputs id = (g.outputs id).diff edges := by
  induction edges generalizing g with
  | nil => rfl
  | cons e rest ih =>
      rw [List.foldl_cons, ih fun x hx => hsource x (List.mem_cons_of_mem e hx), outputs_unlinkEdge,
        if_pos (hsource e List.mem_cons_self).symm, List.diff_cons]

theorem inputs_foldl_unlinkEdge_nil {g : Graph} {id : NodeId} (h : g.inputs id = []) (edges : List Edge) :
    (edges.foldl unlinkEdge g).inputs id = [] := by
  induction edges generalizing g with
  | nil => exact h
  | cons e rest ih =>
      refine ih ?_
      rw [inputs_unlinkEdge, h]
      split <;> rfl

theorem diff_self {α : Type} [DecidableEq α] (l : List α) : l.diff l = [] := by
  induction l with
  | nil => rfl
  | cons a rest ih => rw [List.diff_cons, List.erase_cons_head, ih]

/-- A node without edges may go. -/
theorem Consistent.drop {g : Graph} (h : Consistent g) {id : NodeId} (hin : g.inputs id = [])
    (hout : g.outputs id = []) : Consistent (g.drop id) := by
  refine h.congr (fun other => ?_) fun other => ?_
  · rw [inputs_drop]
    split
    · rename_i hother
      rw [hother]
      exact hin.symm
    · rfl
  · rw [outputs_drop]
    split
    · rename_i hother
      rw [hother]
      exact hout.symm
    · rfl

theorem Consistent.remove {g g' : Graph} (h : Consistent g) {id : NodeId} (hremove : g.remove id = .ok g') :
    Consistent g' := by
  obtain ⟨-, g₁, rfl, rfl⟩ := remove_eq_ok hremove
  have h1 := h.foldl_unlinkEdge (g.inputs id)
  have hin : ((g.inputs id).foldl Graph.unlinkEdge g).inputs id = [] := by
    rw [inputs_foldl_unlinkEdge (h.target_eq id), diff_self]
  refine (h1.foldl_unlinkEdge _).drop (inputs_foldl_unlinkEdge_nil hin _) ?_
  rw [outputs_foldl_unlinkEdge (h1.source_eq id), diff_self]

/-! ## Moving the edges of a node -/

/-- What moving the edges of a list does: the node they are moved from keeps its
    own lists, and the excess shifts by what is spent. -/
structure Moved (old : NodeId) (g g' : Graph) (shift : Edge → Int) : Prop where
  filed : Filed g → Filed g'
  has : ∀ id, g'.has id = g.has id
  inputs_old : g'.inputs old = g.inputs old
  outputs_old : g'.outputs old = g.outputs old
  excess_eq : ∀ x, g'.excess x = g.excess x + shift x

theorem Moved.refl (old : NodeId) (g : Graph) : Moved old g g fun _ => 0 :=
  ⟨id, fun _ => rfl, rfl, rfl, fun x => by omega⟩

theorem Moved.trans {old : NodeId} {g g' g'' : Graph} {shift shift' : Edge → Int} (h : Moved old g g' shift)
    (h' : Moved old g' g'' shift') : Moved old g g'' fun x => shift x + shift' x where
  filed := h'.filed ∘ h.filed
  has id := (h'.has id).trans (h.has id)
  inputs_old := h'.inputs_old.trans h.inputs_old
  outputs_old := h'.outputs_old.trans h.outputs_old
  excess_eq x := by rw [h'.excess_eq, h.excess_eq]; omega

/-- The edge that moving an edge leaves without its other end: the edge itself, or
    the moved one if it led from the old node to itself. -/
def spent (old new : NodeId) (e : Edge) : Edge :=
  if e.source = old ∧ e.target = old then ⟨new, new, e.role⟩ else e

theorem moved_moveInput {old new : NodeId} (hne : old ≠ new) {g : Graph} (hnew : g.has new = true) {e : Edge}
    (htarget : e.target = old) (hmem : e.source ≠ old → e ∈ g.outputs e.source) :
    Moved old g (moveInput old new g e) fun x => -([spent old new e].count x : Int) := by
  by_cases hself : e.source = old
  · -- Only the new node gets an edge.
    have hmove : moveInput old new g e = g.modify new (Node.addInput ⟨new, new, e.role⟩) := by
      simp [moveInput, rename, hself]
    rw [hmove, spent, if_pos ⟨hself, htarget⟩]
    refine ⟨fun h => h.addInput ⟨new, new, e.role⟩, fun id => has_modify .., ?_, ?_, fun x => ?_⟩
    · exact inputs_modify_of_ne hne _
    · exact outputs_modify_of_keep _ _ _ _ fun _ => rfl
    · have hx := excess_addInput (g := g) (m := ⟨new, new, e.role⟩) hnew x
      rw [hx]
      omega
  · let m : Edge := ⟨e.source, new, e.role⟩
    let g1 := g.modify e.source (Node.redirectOutput e m)
    have hmove : moveInput old new g e = g1.modify m.target (Node.addInput m) := by
      simp [moveInput, rename, hself, g1, m]
    rw [hmove, spent, if_neg fun h => hself h.1]
    have hlive : g1.has m.target = true := by
      rw [has_modify]
      exact hnew
    refine ⟨fun h => (h.redirectOutput (e := e) (m := m) rfl).addInput m, fun id => ?_, ?_, ?_, fun x => ?_⟩
    · rw [has_modify, has_modify]
    · rw [inputs_modify_of_ne hne, inputs_modify_of_keep _ _ _ (Node.redirectOutput e m) fun _ => rfl]
    · rw [outputs_modify_of_keep _ _ _ (Node.addInput m) fun _ => rfl, outputs_modify_of_ne (Ne.symm hself)]
    · have hx1 : g1.excess x = _ := excess_redirectOutput (m := m) (hmem hself) rfl x
      have hx2 : (g1.modify m.target (Node.addInput m)).excess x = _ := excess_addInput hlive x
      omega

theorem moved_moveOutput {old new : NodeId} (hne : old ≠ new) {g : Graph} (hnew : g.has new = true) {e : Edge}
    (hsource : e.source = old) (hmem : e.target ≠ old → e ∈ g.inputs e.target) :
    Moved old g (moveOutput old new g e) fun x => ([spent old new e].count x : Int) := by
  by_cases hself : e.target = old
  · have hmove : moveOutput old new g e = g.modify new (Node.addOutput ⟨new, new, e.role⟩) := by
      simp [moveOutput, rename, hself]
    rw [hmove, spent, if_pos ⟨hsource, hself⟩]
    refine ⟨fun h => h.addOutput ⟨new, new, e.role⟩, fun id => has_modify .., ?_, ?_, fun x => ?_⟩
    · exact inputs_modify_of_keep _ _ _ _ fun _ => rfl
    · exact outputs_modify_of_ne hne _
    · exact excess_addOutput (g := g) (m := ⟨new, new, e.role⟩) hnew x
  · let m : Edge := ⟨new, e.target, e.role⟩
    let g1 := g.modify e.target (Node.redirectInput e m)
    have hmove : moveOutput old new g e = g1.modify m.source (Node.addOutput m) := by
      simp [moveOutput, rename, hself, g1, m]
    rw [hmove, spent, if_neg fun h => hself h.2]
    have hlive : g1.has m.source = true := by
      rw [has_modify]
      exact hnew
    refine ⟨fun h => (h.redirectInput (e := e) (m := m) rfl).addOutput m, fun id => ?_, ?_, ?_, fun x => ?_⟩
    · rw [has_modify, has_modify]
    · rw [inputs_modify_of_keep _ _ _ (Node.addOutput m) fun _ => rfl, inputs_modify_of_ne (Ne.symm hself)]
    · rw [outputs_modify_of_ne hne, outputs_modify_of_keep _ _ _ (Node.redirectInput e m) fun _ => rfl]
    · have hx1 : g1.excess x = _ := excess_redirectInput (m := m) (hmem hself) rfl x
      have hx2 : (g1.modify m.source (Node.addOutput m)).excess x = _ := excess_addOutput hlive x
      omega

theorem count_spent_le {old new : NodeId} (hne : old ≠ new) {e y : Edge}
    (hy : y.source = old ∨ y.target = old) : [spent old new e].count y ≤ [e].count y := by
  unfold spent
  split
  · rw [count_singleton_eq_zero]
    · exact Nat.zero_le _
    · rintro rfl
      rcases hy with hy | hy <;> exact hne hy.symm
  · exact Nat.le_refl _

/-- Moving the edges of a list that reach the old node.  Each of them is found at
    its source when it is moved, as often as it is still on the list. -/
theorem moved_foldl_moveInput {old new : NodeId} (hne : old ≠ new) {g : Graph} (hnew : g.has new = true)
    {edges : List Edge} (htarget : ∀ e ∈ edges, e.target = old)
    (hstored : ∀ e, e.source ≠ old → edges.count e ≤ (g.outputs e.source).count e) :
    Moved old g (edges.foldl (moveInput old new) g)
      fun x => -((edges.map (spent old new)).count x : Int) := by
  induction edges generalizing g with
  | nil => exact .refl old g
  | cons e rest ih =>
      have hstep := moved_moveInput hne hnew (htarget e List.mem_cons_self) fun hself => by
        have hcount := hstored e hself
        rw [List.count_cons_self] at hcount
        exact List.count_pos_iff.1 (by omega)
      have hrest := ih (g := moveInput old new g e) (by rw [hstep.has]; exact hnew)
        (fun x hx => htarget x (List.mem_cons_of_mem e hx)) fun y hy => by
          by_cases hmem : y ∈ rest
          · have hyt := htarget y (List.mem_cons_of_mem e hmem)
            have hle := count_spent_le hne (e := e) (.inr hyt)
            have hcount := hstored y hy
            have hcons := count_cons_singleton e y rest
            have hexcess := hstep.excess_eq y
            have hinputs := hstep.inputs_old
            unfold excess at hexcess
            rw [hyt, hinputs] at hexcess
            omega
          · rw [List.count_eq_zero.2 hmem]
            exact Nat.zero_le _
      have hall := hstep.trans hrest
      refine ⟨hall.filed, hall.has, hall.inputs_old, hall.outputs_old, fun x => ?_⟩
      have hx := hall.excess_eq x
      rw [List.map_cons, count_cons_singleton]
      rw [List.foldl_cons]
      omega

theorem moved_foldl_moveOutput {old new : NodeId} (hne : old ≠ new) {g : Graph} (hnew : g.has new = true)
    {edges : List Edge} (hsource : ∀ e ∈ edges, e.source = old)
    (hstored : ∀ e, e.target ≠ old → edges.count e ≤ (g.inputs e.target).count e) :
    Moved old g (edges.foldl (moveOutput old new) g)
      fun x => ((edges.map (spent old new)).count x : Int) := by
  induction edges generalizing g with
  | nil => exact .refl old g
  | cons e rest ih =>
      have hstep := moved_moveOutput hne hnew (hsource e List.mem_cons_self) fun hself => by
        have hcount := hstored e hself
        rw [List.count_cons_self] at hcount
        exact List.count_pos_iff.1 (by omega)
      have hrest := ih (g := moveOutput old new g e) (by rw [hstep.has]; exact hnew)
        (fun x hx => hsource x (List.mem_cons_of_mem e hx)) fun y hy => by
          by_cases hmem : y ∈ rest
          · have hys := hsource y (List.mem_cons_of_mem e hmem)
            have hle := count_spent_le hne (e := e) (.inl hys)
            have hcount := hstored y hy
            have hcons := count_cons_singleton e y rest
            have hexcess := hstep.excess_eq y
            have houtputs := hstep.outputs_old
            unfold excess at hexcess
            rw [hys, houtputs] at hexcess
            omega
          · rw [List.count_eq_zero.2 hmem]
            exact Nat.zero_le _
      have hall := hstep.trans hrest
      refine ⟨hall.filed, hall.has, hall.inputs_old, hall.outputs_old, fun x => ?_⟩
      have hx := hall.excess_eq x
      rw [List.map_cons, count_cons_singleton]
      rw [List.foldl_cons]
      omega

theorem Filed.drop {g : Graph} (h : Filed g) (id : NodeId) : Filed (g.drop id) where
  source_eq other e he := by
    rw [outputs_drop] at he
    split at he
    · cases he
    · exact h.source_eq other e he
  target_eq other e he := by
    rw [inputs_drop] at he
    split at he
    · cases he
    · exact h.target_eq other e he

theorem excess_drop (g : Graph) (id : NodeId) (x : Edge) :
    (g.drop id).excess x = g.excess x - (if x.source = id then ((g.outputs id).count x : Int) else 0)
      + (if x.target = id then ((g.inputs id).count x : Int) else 0) := by
  unfold excess
  rw [inputs_drop, outputs_drop]
  by_cases hs : x.source = id <;> by_cases ht : x.target = id <;>
    simp only [hs, ht, if_true, if_false, List.count_nil] <;> omega

/-- The edges of a list that lead from a node to itself, and the others. -/
theorem count_map_spent (old new : NodeId) (edges : List Edge) (x : Edge) :
    (edges.map (spent old new)).count x
      = ((edges.filter fun e => e.source = old ∧ e.target = old).map fun e => (⟨new, new, e.role⟩ : Edge)).count x
        + (edges.filter fun e => ¬ (e.source = old ∧ e.target = old)).count x := by
  induction edges with
  | nil => rfl
  | cons e rest ih =>
      rw [List.map_cons, count_cons_singleton, ih, List.filter_cons, List.filter_cons, spent]
      by_cases hself : e.source = old ∧ e.target = old
      · simp only [hself, and_self, decide_true, if_true, List.map_cons, not_true_eq_false, decide_false,
          Bool.false_eq_true, if_false]
        have hcons := count_cons_singleton (⟨new, new, e.role⟩ : Edge) x
          ((rest.filter fun e => e.source = old ∧ e.target = old).map fun e => (⟨new, new, e.role⟩ : Edge))
        omega
      · simp only [hself, decide_false, Bool.false_eq_true, if_false, not_false_eq_true, decide_true, if_true]
        have hcons := count_cons_singleton e x
          (rest.filter fun e => ¬ (e.source = old ∧ e.target = old))
        omega

theorem count_split_self (old : NodeId) (edges : List Edge) (x : Edge) :
    edges.count x = (edges.filter fun e => e.source = old ∧ e.target = old).count x
      + (edges.filter fun e => ¬ (e.source = old ∧ e.target = old)).count x := by
  have hperm := List.filter_append_perm (fun e : Edge => decide (e.source = old ∧ e.target = old)) edges
  rw [← hperm.count_eq, List.count_append]
  simp

/-- The edges of a node are stored at their other ends. -/
theorem Consistent.count_inputs_le {g : Graph} (h : g.Consistent) (id : NodeId) (e : Edge) :
    (g.inputs id).count e ≤ (g.outputs e.source).count e := by
  by_cases hmem : e ∈ g.inputs id
  · rw [h.count_eq, h.target_eq id e hmem]
  · rw [List.count_eq_zero.2 hmem]
    exact Nat.zero_le _

theorem Consistent.count_outputs_le {g : Graph} (h : g.Consistent) (id : NodeId) (e : Edge) :
    (g.outputs id).count e ≤ (g.inputs e.target).count e := by
  by_cases hmem : e ∈ g.outputs id
  · rw [← h.count_eq, h.source_eq id e hmem]
  · rw [List.count_eq_zero.2 hmem]
    exact Nat.zero_le _

/-- They still are when what reached the old node is moved: no moved edge leaves the old
    node. -/
theorem Consistent.count_outputs_le_of_moved {g : Graph} (h : g.Consistent) {old new : NodeId} (hne : old ≠ new)
    (hnew : g.has new = true) {e : Edge} (htarget : e.target ≠ old) : (g.outputs old).count e
      ≤ (((g.inputs old).foldl (moveInput old new) g).inputs e.target).count e := by
  have hmoved := moved_foldl_moveInput hne hnew (h.target_eq old) fun e _ => h.count_inputs_le old e
  by_cases hmem : e ∈ g.outputs old
  · have hsource := h.source_eq old e hmem
    have hnone : ((g.inputs old).map (spent old new)).count e = 0 := by
      refine List.count_eq_zero.2 fun hspent => ?_
      obtain ⟨x, hx, rfl⟩ := List.mem_map.1 hspent
      unfold spent at hsource htarget
      split at hsource
      · exact hne hsource.symm
      · rename_i hnot
        exact hnot ⟨hsource, h.target_eq old x hx⟩
    have hexcess := hmoved.excess_eq e
    have hcount := h.count_outputs_le old e
    have hzero := h.excess_eq e
    unfold excess at hexcess hzero
    rw [hsource, hmoved.outputs_old] at hexcess
    rw [hsource] at hzero
    omega
  · rw [List.count_eq_zero.2 hmem]
    exact Nat.zero_le _

/-- A node is replaced exactly by another live one: its edges are moved, and it goes. -/
theorem replace_eq_ok {g g' : Graph} {old new : NodeId} :
    g.replace old new = .ok g' ↔ g.has old = true ∧ g.has new = true ∧ old ≠ new ∧
      ((g.outputs old).foldl (moveOutput old new) ((g.inputs old).foldl (moveInput old new) g)).drop old = g' := by
  constructor
  · intro h
    rw [Graph.replace] at h
    obtain ⟨node, hold, h⟩ := bind_eq_ok.1 h
    obtain ⟨_, hnew, h⟩ := bind_eq_ok.1 h
    obtain ⟨hlive, hinputs, houtputs⟩ := has_of_require hold
    refine ⟨hlive, (has_of_require hnew).1, ?_⟩
    by_cases hne : old = new
    · simp [hne, throw, throwThe, MonadExceptOf.throw] at h
    · simp only [if_neg hne, pure_eq_ok] at h
      rw [hinputs, houtputs]
      exact ⟨hne, h⟩
  · rintro ⟨hold, hnew, hne, rfl⟩
    obtain ⟨node, hnode⟩ := has_iff.1 hold
    obtain ⟨_, hother⟩ := has_iff.1 hnew
    rw [Graph.replace, require_eq_ok.2 hnode, require_eq_ok.2 hother]
    simp [bind, Except.bind, hne, pure, Except.pure, inputs, outputs, hnode]

theorem exists_replace {g : Graph} {old new : NodeId} (hold : g.has old = true) (hnew : g.has new = true)
    (hne : old ≠ new) : ∃ g', g.replace old new = .ok g' := ⟨_, replace_eq_ok.2 ⟨hold, hnew, hne, rfl⟩⟩

theorem Consistent.replace {g g' : Graph} (h : Consistent g) {old new : NodeId}
    (hreplace : g.replace old new = .ok g') : Consistent g' := by
  obtain ⟨-, hlive, hne, hmoved⟩ := replace_eq_ok.1 hreplace
  have hin := h.target_eq old
  have hout := h.source_eq old
  have hfirst := moved_foldl_moveInput hne hlive hin fun e _ => h.count_inputs_le old e
  have hsecond := moved_foldl_moveOutput (g := (g.inputs old).foldl (moveInput old new) g) hne
    (by rw [hfirst.has]; exact hlive) hout fun e he => h.count_outputs_le_of_moved hne hlive he
  have hall := hfirst.trans hsecond
  generalize (g.outputs old).foldl (moveOutput old new) ((g.inputs old).foldl (moveInput old new) g) = moved
    at hall hmoved
  subst hmoved
  refine ⟨(hall.filed h.toFiled).drop old, fun x => ?_⟩
  -- Edges from the old node to itself are counted at both of its lists.
  have hself : ((g.inputs old).filter fun e => e.source = old ∧ e.target = old).Perm
      ((g.outputs old).filter fun e => e.source = old ∧ e.target = old) := by
    rw [List.perm_iff_count]
    intro e
    by_cases hloop : e.source = old ∧ e.target = old
    · have hcount := h.count_eq e
      rw [hloop.1, hloop.2] at hcount
      rw [List.count_filter (by simpa using hloop), List.count_filter (by simpa using hloop), hcount]
    · rw [List.count_eq_zero.2, List.count_eq_zero.2] <;> simp [List.mem_filter, hloop]
  have hloops := (hself.map fun e => (⟨new, new, e.role⟩ : Edge)).count_eq x
  have hselfCount := hself.count_eq x
  have hspentIn := count_map_spent old new (g.inputs old) x
  have hspentOut := count_map_spent old new (g.outputs old) x
  have hsplitIn := count_split_self old (g.inputs old) x
  have hsplitOut := count_split_self old (g.outputs old) x
  have hinCount : (if x.target = old then ((g.inputs old).count x : Int) else 0) = (g.inputs old).count x := by
    split
    · rfl
    · rename_i hx
      rw [List.count_eq_zero.2 fun hmem => hx (hin x hmem)]
      rfl
  have houtCount : (if x.source = old then ((g.outputs old).count x : Int) else 0) = (g.outputs old).count x := by
    split
    · rfl
    · rename_i hx
      rw [List.count_eq_zero.2 fun hmem => hx (hout x hmem)]
      rfl
  have hexcess := hall.excess_eq x
  have hzero := h.excess_eq x
  rw [excess_drop, hall.inputs_old, hall.outputs_old, hinCount, houtCount]
  omega

/-! ## Moving the uses of a node -/

/-- What moving uses does: the old node keeps what leaves it until the end, so each moved
    edge is one too many at its source. -/
structure MovedUses (old : NodeId) (g g' : Graph) (edges : List Edge) : Prop where
  filed : Filed g → Filed g'
  has : ∀ id, g'.has id = g.has id
  outputs_old : g'.outputs old = g.outputs old
  excess_eq : ∀ x, g'.excess x = g.excess x + edges.count x

theorem MovedUses.cons {old : NodeId} {g g' g'' : Graph} {e : Edge} {edges : List Edge}
    (h : MovedUses old g g' [e]) (h' : MovedUses old g' g'' edges) : MovedUses old g g'' (e :: edges) where
  filed := h'.filed ∘ h.filed
  has id := (h'.has id).trans (h.has id)
  outputs_old := h'.outputs_old.trans h.outputs_old
  excess_eq x := by
    have hcons := count_cons_singleton e x edges
    rw [h'.excess_eq, h.excess_eq]
    omega

theorem movedUses_moveUse {old new : NodeId} (hne : old ≠ new) {g : Graph} (hnew : g.has new = true) {e : Edge}
    (he : e ∈ g.inputs e.target) : MovedUses old g (moveUse new g e) [e] := by
  let m : Edge := ⟨new, e.target, e.role⟩
  let g1 := g.modify e.target (Node.redirectInput e m)
  have hlive : g1.has m.source = true := by
    rw [has_modify]
    exact hnew
  change MovedUses old g (g1.modify m.source (Node.addOutput m)) [e]
  refine ⟨fun h => (h.redirectInput (e := e) (m := m) rfl).addOutput m, fun id => ?_, ?_, fun x => ?_⟩
  · rw [has_modify, has_modify]
  · rw [outputs_modify_of_ne hne, outputs_modify_of_keep _ _ _ (Node.redirectInput e m) fun _ => rfl]
  · have hx1 : g1.excess x = _ := excess_redirectInput (m := m) he rfl x
    have hx2 : (g1.modify m.source (Node.addOutput m)).excess x = _ := excess_addOutput hlive x
    omega

/-- Moving the uses on a list.  Each of them is found at its target when it is moved, as
    often as it is still on the list. -/
theorem movedUses_foldl {old new : NodeId} (hne : old ≠ new) {g : Graph} (hnew : g.has new = true)
    {edges : List Edge} (hsource : ∀ e ∈ edges, e.source = old)
    (hstored : ∀ e, edges.count e ≤ (g.inputs e.target).count e) :
    MovedUses old g (edges.foldl (moveUse new) g) edges := by
  induction edges generalizing g with
  | nil => exact ⟨id, fun _ => rfl, rfl, fun x => by simp⟩
  | cons e rest ih =>
      have he : e ∈ g.inputs e.target := by
        have hcount := hstored e
        rw [List.count_cons_self] at hcount
        exact List.count_pos_iff.1 (by omega)
      have hstep := movedUses_moveUse hne hnew he
      refine hstep.cons (ih (by rw [hstep.has]; exact hnew) (fun x hx => hsource x (List.mem_cons_of_mem e hx))
        fun y => ?_)
      by_cases hmem : y ∈ rest
      · have hcount := hstored y
        have hcons := count_cons_singleton e y rest
        have hexcess := hstep.excess_eq y
        unfold excess at hexcess
        rw [hsource y (List.mem_cons_of_mem e hmem), hstep.outputs_old] at hexcess
        omega
      · rw [List.count_eq_zero.2 hmem]
        exact Nat.zero_le _

/-- The uses of a node are forwarded exactly to another live one. -/
theorem replaceUses_eq_ok {g g' : Graph} {old new : NodeId} (h : g.replaceUses old new = .ok g') :
    g.has old = true ∧ g.has new = true ∧ old ≠ new ∧
      g' = (((g.outputs old).filter fun e => e.role.isValue).foldl (moveUse new) g).modify old fun n =>
        { n with outputs := (g.outputs old).filter fun e => !e.role.isValue } := by
  rw [Graph.replaceUses] at h
  obtain ⟨node, hold, h⟩ := bind_eq_ok.1 h
  obtain ⟨_, hnew, h⟩ := bind_eq_ok.1 h
  obtain ⟨hlive, -, houtputs⟩ := has_of_require hold
  by_cases hne : old = new
  · simp [hne, throw, throwThe, MonadExceptOf.throw] at h
  · simp only [if_neg hne, pure_eq_ok] at h
    rw [houtputs]
    exact ⟨hlive, (has_of_require hnew).1, hne, h.symm⟩

theorem Consistent.replaceUses {g g' : Graph} (h : Consistent g) {old new : NodeId}
    (hreplace : g.replaceUses old new = .ok g') : Consistent g' := by
  obtain ⟨hold, hnew, hne, rfl⟩ := replaceUses_eq_ok hreplace
  have hsource := h.source_eq old
  have hmoved : MovedUses old g (((g.outputs old).filter fun e => e.role.isValue).foldl (moveUse new) g)
      ((g.outputs old).filter fun e => e.role.isValue) :=
    movedUses_foldl hne hnew (fun e he => hsource e (List.mem_of_mem_filter he)) fun e =>
      (List.Sublist.count_le e List.filter_sublist).trans (h.count_outputs_le old e)
  generalize ((g.outputs old).filter fun e => e.role.isValue).foldl (moveUse new) g = moved at hmoved
  refine ⟨(hmoved.filed h.toFiled).modify_outputs ?_ fun _ => rfl, fun x => ?_⟩
  · intro n e he
    exact .inr (hsource e (List.mem_of_mem_filter he))
  · have hsplit := (List.filter_append_perm (fun e : Edge => e.role.isValue) (g.outputs old)).count_eq x
    rw [List.count_append] at hsplit
    have hzero := h.excess_eq x
    rw [excess_modify_outputs
        (fun n : Node => { n with outputs := (g.outputs old).filter fun e => !e.role.isValue })
        (fun _ => (g.outputs old).filter fun e => !e.role.isValue) (fun _ => rfl) (fun _ => rfl)
        (by rw [hmoved.has]; exact hold),
      hmoved.excess_eq, hmoved.outputs_old, hzero]
    split
    · show (0 : Int) + _ + (((g.outputs old).filter fun e => !e.role.isValue).count x - _) = 0
      omega
    · rename_i hx
      rw [List.count_eq_zero.2 fun hmem => hx (hsource x (List.mem_of_mem_filter hmem))]
      rfl

end SeaOfNodes.Graph
