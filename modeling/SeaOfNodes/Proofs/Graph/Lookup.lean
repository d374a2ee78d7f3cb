/-
  SeaOfNodes.Proofs.Graph.Lookup

  What the elementary changes of a graph do to what can be looked up in it.
  `Graph.node?` is the view: every change is described by what it does there, and
  the laws for operations, properties and edges follow from that.
-/
import SeaOfNodes.Graph.Query
import SeaOfNodes.Graph.Surgery
import Mathlib.Data.List.Nodup
import Mathlib.Data.List.Range

namespace SeaOfNodes.Graph

/-! ## Looking up nodes -/

/-- Changing one node is seen at its own handle only. -/
theorem node?_modify (g : Graph) (id other : NodeId) (f : Node → Node) :
    (g.modify id f).node? other = if other = id then (g.node? other).map f else g.node? other := by
  cases id with
  | negSucc i =>
      cases other with
      | negSucc j => simp [node?]
      | ofNat j => simp [modify]
  | ofNat i =>
      cases other with
      | negSucc j => simp [node?]
      | ofNat j =>
          simp only [modify, node?, Array.getElem?_modify, Int.ofNat_eq_natCast, Int.natCast_inj]
          by_cases h : i = j
          · subst h
            cases g.arena[i]? with
            | none => simp
            | some slot => cases slot <;> simp
          · have h' : ¬ j = i := fun hji => h hji.symm
            simp [h, h']

/-- A dropped node is gone, and no other. -/
theorem node?_drop (g : Graph) (id other : NodeId) :
    (g.drop id).node? other = if other = id then none else g.node? other := by
  cases id with
  | negSucc i =>
      cases other with
      | negSucc j => simp [node?]
      | ofNat j => simp [drop]
  | ofNat i =>
      cases other with
      | negSucc j => simp [node?]
      | ofNat j =>
          simp only [drop, node?, Array.getElem?_modify, Int.ofNat_eq_natCast, Int.natCast_inj]
          by_cases h : i = j
          · subst h
            cases g.arena[i]? <;> simp
          · have h' : ¬ j = i := fun hji => h hji.symm
            simp [h, h']

theorem inputs_drop (g : Graph) (id other : NodeId) :
    (g.drop id).inputs other = if other = id then [] else g.inputs other := by
  rw [inputs, node?_drop]
  split
  · rfl
  · rfl

theorem outputs_drop (g : Graph) (id other : NodeId) :
    (g.drop id).outputs other = if other = id then [] else g.outputs other := by
  rw [outputs, node?_drop]
  split
  · rfl
  · rfl

/-- A new node is found at its handle and changes no other. -/
theorem node?_addNode (g : Graph) (op : Op) (props : Props) (other : NodeId) :
    (g.addNode op props).2.node? other
      = if other = (g.addNode op props).1 then some ⟨op, props, [], []⟩ else g.node? other := by
  cases other with
  | negSucc j => simp [addNode, node?]
  | ofNat j =>
      simp only [addNode, node?, Array.getElem?_push, Int.ofNat_eq_natCast, Int.natCast_inj]
      by_cases h : j = g.arena.size
      · simp [h]
      · simp [h]

/-- The handle of a new node was not in use. -/
theorem node?_addNode_fresh (g : Graph) (op : Op) (props : Props) :
    g.node? (g.addNode op props).1 = none := by
  simp [addNode, node?]

theorem has_iff {g : Graph} {id : NodeId} : g.has id = true ↔ ∃ n, g.node? id = some n := by
  simp [has, Option.isSome_iff_exists]

theorem has_addNode (g : Graph) (op : Op) (props : Props) (id : NodeId) :
    (g.addNode op props).2.has id = (decide (id = (g.addNode op props).1) || g.has id) := by
  unfold has
  rw [node?_addNode]
  by_cases h : id = (g.addNode op props).1 <;> simp [h]

theorem op_addNode (g : Graph) (op : Op) (props : Props) (id : NodeId) :
    (g.addNode op props).2.op id = if id = (g.addNode op props).1 then op else g.op id := by
  unfold Graph.op
  rw [node?_addNode]
  split <;> rfl

theorem props_addNode (g : Graph) (op : Op) (props : Props) (id : NodeId) :
    (g.addNode op props).2.props id = if id = (g.addNode op props).1 then props else g.props id := by
  unfold Graph.props
  rw [node?_addNode]
  split <;> rfl

theorem size_arena_addNode (g : Graph) (op : Op) (props : Props) :
    (g.addNode op props).2.arena.size = g.arena.size + 1 := by simp [Graph.addNode]

@[simp] theorem has_modify (g : Graph) (id other : NodeId) (f : Node → Node) :
    (g.modify id f).has other = g.has other := by
  unfold has
  rw [node?_modify]
  split <;> simp

@[simp] theorem size_arena_modify (g : Graph) (id : NodeId) (f : Node → Node) :
    (g.modify id f).arena.size = g.arena.size := by
  cases id <;> simp [modify]

@[simp] theorem size_arena_drop (g : Graph) (id : NodeId) :
    (g.drop id).arena.size = g.arena.size := by
  cases id <;> simp [drop]

/-! ## Handles in use -/

/-- A handle in use is the number of a slot. -/
theorem exists_slot_of_has {g : Graph} {id : NodeId} (h : g.has id = true) :
    ∃ i, i < g.arena.size ∧ Int.ofNat i = id := by
  obtain ⟨n, hn⟩ := has_iff.1 h
  cases id with
  | negSucc i => simp [node?] at hn
  | ofNat i =>
      refine ⟨i, ?_, rfl⟩
      by_contra hi
      simp [node?, Array.getElem?_eq_none (Nat.le_of_not_lt hi)] at hn

theorem has_empty (id : NodeId) : empty.has id = false := by
  cases id <;> simp [empty, has, node?]

/-- The listed handles are those in use. -/
theorem mem_ids {g : Graph} {id : NodeId} : id ∈ g.ids ↔ g.has id = true := by
  simp only [ids, List.mem_filter, List.mem_map, List.mem_range]
  exact ⟨fun h => h.2, fun h => ⟨exists_slot_of_has h, h⟩⟩

/-- The listed handles are ascending. -/
theorem pairwise_lt_ids (g : Graph) : g.ids.Pairwise (· < ·) := by
  refine List.Pairwise.filter _ ?_
  rw [List.pairwise_map]
  exact List.pairwise_lt_range.imp fun h => Int.ofNat_lt.2 h

theorem nodup_ids (g : Graph) : g.ids.Nodup :=
  g.pairwise_lt_ids.imp fun h => Int.ne_of_lt h

/-- Graphs of one size that use the same handles list them alike. -/
theorem ids_congr {g g' : Graph} (hsize : g'.arena.size = g.arena.size)
    (hhas : ∀ id, g'.has id = g.has id) : g'.ids = g.ids := by
  unfold ids
  rw [hsize]
  exact List.filter_congr fun id _ => hhas id

/-- Counting the live slots of an arena from a number up. -/
theorem foldl_count_isSome (slots : List (Option Node)) (n : Nat) :
    slots.foldl (fun n slot => if slot.isSome then n + 1 else n) n
      = n + slots.countP Option.isSome := by
  induction slots generalizing n with
  | nil => simp
  | cons slot rest ih =>
      rw [List.foldl_cons, ih, List.countP_cons]
      cases slot <;> simp
      omega

theorem length_ids_le (g : Graph) : g.ids.length ≤ g.arena.size := by
  refine (List.length_filter_le ..).trans ?_
  simp

/-- The size of a graph is the number of handles in use. -/
theorem size_eq_length_ids (g : Graph) : g.size = g.ids.length := by
  have hids : g.ids = ((List.range g.arena.size).filter fun i => g.has (Int.ofNat i)).map Int.ofNat := by
    rw [ids, List.filter_map]
    rfl
  have hslots : g.arena.toList = (List.range g.arena.size).map fun i => (g.arena[i]?).join := by
    apply List.ext_getElem
    · simp
    · intro i hi hi'
      have hlt : i < g.arena.size := by simpa using hi
      simp [hlt]
  rw [size, ← Array.foldl_toList, foldl_count_isSome, hids, List.length_map, hslots, List.countP_map,
    List.countP_eq_length_filter, Nat.zero_add]
  rfl

/-! ## Operations, properties and edges -/

/-- A node that is not in use has no edges. -/
theorem has_of_mem_inputs {g : Graph} {id : NodeId} {e : Edge} (h : e ∈ g.inputs id) :
    g.has id = true := by
  unfold inputs at h
  cases hn : g.node? id with
  | none => simp [hn] at h
  | some n => simp [has, hn]

theorem has_of_mem_outputs {g : Graph} {id : NodeId} {e : Edge} (h : e ∈ g.outputs id) :
    g.has id = true := by
  unfold outputs at h
  cases hn : g.node? id with
  | none => simp [hn] at h
  | some n => simp [has, hn]

theorem inputs_eq_nil {g : Graph} {id : NodeId} (h : g.has id = false) : g.inputs id = [] := by
  have hno : g.node? id = none := by simpa [has] using h
  simp [inputs, hno]

theorem outputs_eq_nil {g : Graph} {id : NodeId} (h : g.has id = false) : g.outputs id = [] := by
  have hno : g.node? id = none := by simpa [has] using h
  simp [outputs, hno]

/-- A node with a proper operation is in use. -/
theorem has_of_op_ne_invalid {g : Graph} {id : NodeId} (h : g.op id ≠ .invalid) :
    g.has id = true := by
  cases hn : g.node? id with
  | none => simp [op, hn] at h
  | some n => simp [has, hn]

/-- A search finds the nodes with an operation. -/
theorem mem_find_iff {g : Graph} {op : Op} (hop : op ≠ .invalid) {id : NodeId} : id ∈ g.find op ↔ g.op id = op := by
  rw [find, List.mem_filter, mem_ids, decide_eq_true_eq]
  refine and_iff_right_of_imp ?_
  rintro rfl
  exact has_of_op_ne_invalid hop

/-- Where the same nodes have an operation, as many do. -/
theorem length_find_eq {g g' : Graph} {op : Op} (hop : op ≠ .invalid) (h : ∀ id, g'.op id = op ↔ g.op id = op) :
    (g'.find op).length = (g.find op).length := by
  apply List.Perm.length_eq
  apply (List.perm_ext_iff_of_nodup (g'.nodup_ids.filter _) (g.nodup_ids.filter _)).2
  intro id
  exact (mem_find_iff hop).trans ((h id).trans (mem_find_iff hop).symm)

theorem props_eq_empty {g : Graph} {id : NodeId} (h : g.has id = false) : g.props id = .empty := by
  cases hn : g.node? id with
  | none => simp [props, hn]
  | some n => simp [has, hn] at h

/-- A node with a property is in use. -/
theorem has_of_get?_props {g : Graph} {id : NodeId} {key : String} {value : Literal}
    (h : (g.props id).get? key = some value) : g.has id = true := by
  cases hn : g.node? id with
  | none => simp [props, hn, Props.get?, Props.empty] at h
  | some n => simp [has, hn]

section Modify

variable (g : Graph) (id other : NodeId) (f : Node → Node)

/-- A change that keeps a part of nodes keeps it everywhere. -/
theorem getD_node?_modify {β : Type} (part : Node → β) (default : β)
    (hkeep : ∀ n, part (f n) = part n) :
    (((g.modify id f).node? other).map part).getD default = ((g.node? other).map part).getD default := by
  rw [node?_modify]
  split
  · cases g.node? other with
    | none => rfl
    | some n => simp [hkeep n]
  · rfl

theorem op_modify (hkeep : ∀ n, (f n).op = n.op) : (g.modify id f).op other = g.op other :=
  getD_node?_modify g id other f Node.op .invalid hkeep

theorem props_modify (hkeep : ∀ n, (f n).props = n.props) :
    (g.modify id f).props other = g.props other :=
  getD_node?_modify g id other f Node.props .empty hkeep

theorem inputs_modify_of_keep (hkeep : ∀ n, (f n).inputs = n.inputs) :
    (g.modify id f).inputs other = g.inputs other :=
  getD_node?_modify g id other f Node.inputs [] hkeep

theorem outputs_modify_of_keep (hkeep : ∀ n, (f n).outputs = n.outputs) :
    (g.modify id f).outputs other = g.outputs other :=
  getD_node?_modify g id other f Node.outputs [] hkeep

/-- The inputs of a node in use change as its list does. -/
theorem inputs_modify (change : List Edge → List Edge) (hf : ∀ n, (f n).inputs = change n.inputs)
    (hid : g.has id = true) :
    (g.modify id f).inputs other = if other = id then change (g.inputs other) else g.inputs other := by
  unfold inputs
  rw [node?_modify]
  split
  · rename_i h
    subst h
    obtain ⟨n, hn⟩ := has_iff.1 hid
    simp [hn, hf]
  · rfl

/-- The outputs of a node in use change as its list does. -/
theorem outputs_modify (change : List Edge → List Edge) (hf : ∀ n, (f n).outputs = change n.outputs)
    (hid : g.has id = true) :
    (g.modify id f).outputs other = if other = id then change (g.outputs other) else g.outputs other := by
  unfold outputs
  rw [node?_modify]
  split
  · rename_i h
    subst h
    obtain ⟨n, hn⟩ := has_iff.1 hid
    simp [hn, hf]
  · rfl

end Modify

/-! ## Setting properties -/

@[simp] theorem has_setProp (g : Graph) (id other : NodeId) (key : String) (value : Literal) :
    (g.setProp id key value).has other = g.has other := has_modify ..

@[simp] theorem op_setProp (g : Graph) (id other : NodeId) (key : String) (value : Literal) :
    (g.setProp id key value).op other = g.op other := op_modify g id other _ fun _ => rfl

@[simp] theorem inputs_setProp (g : Graph) (id other : NodeId) (key : String) (value : Literal) :
    (g.setProp id key value).inputs other = g.inputs other :=
  inputs_modify_of_keep g id other _ fun _ => rfl

@[simp] theorem outputs_setProp (g : Graph) (id other : NodeId) (key : String) (value : Literal) :
    (g.setProp id key value).outputs other = g.outputs other :=
  outputs_modify_of_keep g id other _ fun _ => rfl

@[simp] theorem size_arena_setProp (g : Graph) (id : NodeId) (key : String) (value : Literal) :
    (g.setProp id key value).arena.size = g.arena.size := size_arena_modify ..

/-- Setting a property is seen at the node that has it. -/
theorem props_setProp (g : Graph) (id other : NodeId) (key : String) (value : Literal) :
    (g.setProp id key value).props other
      = if other = id ∧ g.has id = true then (g.props other).set key value else g.props other := by
  unfold props setProp
  rw [node?_modify]
  by_cases h : other = id
  · subst h
    cases hn : g.node? other <;> simp [has, hn]
  · simp [h]

/-! ## Linking edges -/

section Link

variable (g : Graph) (e : Edge)

@[simp] theorem has_linkEdge (id : NodeId) : (g.linkEdge e).has id = g.has id := by simp [linkEdge]

@[simp] theorem size_arena_linkEdge : (g.linkEdge e).arena.size = g.arena.size := by simp [linkEdge]

@[simp] theorem op_linkEdge (id : NodeId) : (g.linkEdge e).op id = g.op id := by
  unfold linkEdge
  rw [op_modify _ _ _ (Node.addInput e) fun _ => rfl, op_modify _ _ _ (Node.addOutput e) fun _ => rfl]

@[simp] theorem props_linkEdge (id : NodeId) : (g.linkEdge e).props id = g.props id := by
  unfold linkEdge
  rw [props_modify _ _ _ (Node.addInput e) fun _ => rfl,
    props_modify _ _ _ (Node.addOutput e) fun _ => rfl]

/-- A linked edge comes last at its target. -/
theorem inputs_linkEdge (id : NodeId) (htarget : g.has e.target = true) :
    (g.linkEdge e).inputs id = if id = e.target then g.inputs id ++ [e] else g.inputs id := by
  unfold linkEdge
  rw [inputs_modify _ _ _ _ (· ++ [e]) (fun _ => rfl) (by simpa using htarget),
    inputs_modify_of_keep _ _ _ (Node.addOutput e) fun _ => rfl]

/-- A linked edge comes last at its source. -/
theorem outputs_linkEdge (id : NodeId) (hsource : g.has e.source = true) :
    (g.linkEdge e).outputs id = if id = e.source then g.outputs id ++ [e] else g.outputs id := by
  unfold linkEdge
  rw [outputs_modify_of_keep _ _ _ (Node.addInput e) fun _ => rfl,
    outputs_modify _ _ _ _ (· ++ [e]) (fun _ => rfl) hsource]

end Link

theorem require_eq_ok {g : Graph} {id : NodeId} {n : Node} :
    g.require id = .ok n ↔ g.node? id = some n := by
  unfold require
  cases g.node? id <;> simp

/-- An edge is added exactly between nodes in use. -/
theorem connect_eq_ok {g g' : Graph} {e : Edge} :
    g.connect e = .ok g' ↔ g.has e.source = true ∧ g.has e.target = true ∧ g' = g.linkEdge e := by
  unfold connect require has
  cases g.node? e.source with
  | none => simp [bind, Except.bind]
  | some n =>
      cases g.node? e.target with
      | none => simp [bind, Except.bind]
      | some m => simp [bind, Except.bind, pure, Except.pure, eq_comm]

end SeaOfNodes.Graph
