/-
  SeaOfNodes.Proofs.Graph.Consistent

  The representation invariant of graphs: every edge is stored at both of its
  ends, and as often at the one as at the other.  It is stated through the
  *excess* of an edge, which counts how much more often it is stored at its source
  than at its target; each elementary change shifts the excess of the edges it
  touches by one.
-/
import SeaOfNodes.Proofs.Graph.Agree

namespace SeaOfNodes.Graph

/-- Edges are stored at the nodes they name. -/
structure Filed (g : Graph) : Prop where
  source_eq : ∀ id, ∀ e ∈ g.outputs id, e.source = id
  target_eq : ∀ id, ∀ e ∈ g.inputs id, e.target = id

/-- How much more often an edge is stored at its source than at its target. -/
def excess (g : Graph) (e : Edge) : Int :=
  (g.outputs e.source).count e - (g.inputs e.target).count e

/-- Every edge is stored at both of its ends, equally often. -/
structure Consistent (g : Graph) : Prop extends Filed g where
  excess_eq : ∀ e, g.excess e = 0

namespace Consistent

variable {g : Graph} (h : Consistent g)
include h

theorem count_eq (e : Edge) : (g.outputs e.source).count e = (g.inputs e.target).count e := by
  have := h.excess_eq e
  unfold excess at this
  omega

theorem mem_iff (e : Edge) : e ∈ g.outputs e.source ↔ e ∈ g.inputs e.target := by
  rw [← List.count_pos_iff, ← List.count_pos_iff, h.count_eq]

/-- An edge that reaches a node leaves its source. -/
theorem mem_outputs {id : NodeId} {e : Edge} (he : e ∈ g.inputs id) : e ∈ g.outputs e.source := by
  rw [h.mem_iff, h.target_eq id e he]
  exact he

/-- An edge that leaves a node reaches its target. -/
theorem mem_inputs {id : NodeId} {e : Edge} (he : e ∈ g.outputs id) : e ∈ g.inputs e.target := by
  rw [← h.mem_iff, h.source_eq id e he]
  exact he

theorem has_source {id : NodeId} {e : Edge} (he : e ∈ g.inputs id) : g.has e.source = true :=
  has_of_mem_outputs (h.mem_outputs he)

theorem has_target {id : NodeId} {e : Edge} (he : e ∈ g.outputs id) : g.has e.target = true :=
  has_of_mem_inputs (h.mem_inputs he)

/-- Control reaches what it is followed to. -/
theorem mem_controlPredecessors {a b : NodeId} :
    a ∈ g.controlPredecessors b ↔ b ∈ g.controlSuccessors a := by
  simp only [controlPredecessors, controlSuccessors, inputsWhere, outputsWhere, List.mem_map,
    List.mem_filter]
  constructor
  · rintro ⟨e, ⟨he, hrole⟩, rfl⟩
    exact ⟨e, ⟨h.mem_outputs he, hrole⟩, h.target_eq b e he⟩
  · rintro ⟨e, ⟨he, hrole⟩, rfl⟩
    exact ⟨e, ⟨h.mem_inputs he, hrole⟩, h.source_eq a e he⟩

theorem isFixed_of_controlSuccessors {a b : NodeId} (hb : b ∈ g.controlSuccessors a) :
    g.isFixed b = true := by
  rw [← h.mem_controlPredecessors] at hb
  simp only [controlPredecessors, inputsWhere, List.mem_map, List.mem_filter] at hb
  obtain ⟨e, ⟨he, hrole⟩, -⟩ := hb
  have : (g.inputs b).any (fun e => e.role.isControl) = true := List.any_eq_true.2 ⟨e, he, hrole⟩
  simp [isFixed, this]

end Consistent

/-! ## Fixed nodes -/

theorem isFixed_of_op {g : Graph} {id : NodeId} (h : (g.op id).isFixed = true) : g.isFixed id = true := by
  simp [isFixed, h]

theorem isFixed_of_hasControlSuccessor {g : Graph} {id next : NodeId} (h : next ∈ g.controlSuccessors id) :
    g.isFixed id = true := by
  obtain ⟨e, he, -⟩ := List.mem_map.1 h
  obtain ⟨he, hrole⟩ := List.mem_filter.1 he
  have hany : g.hasControlOutput id = true := List.any_eq_true.2 ⟨e, he, hrole⟩
  simp [isFixed, hany]

theorem has_of_isFixed {g : Graph} {id : NodeId} (h : g.isFixed id = true) : g.has id = true := by
  by_contra hdead
  have hnone : g.node? id = none := by simpa [has] using hdead
  simp [isFixed, hasControlOutput, op, inputs, outputs, hnone, Op.isFixed] at h

/-- A value is needed where it goes, except by a phi. -/
theorem useSite_eq_target {g : Graph} {e : Edge} (h : g.op e.target ≠ .phi) : g.useSite e = e.target := by
  simp [useSite, h]

/-- The place that needs an operand of a phi is fixed. -/
theorem Consistent.isFixed_useSite {g : Graph} (hg : g.Consistent) {e : Edge} (h : g.op e.target = .phi) :
    g.isFixed (g.useSite e) = true := by
  have htarget : g.isFixed e.target = true := isFixed_of_op (by rw [h]; rfl)
  unfold useSite
  split
  · cases hindex : e.role.index with
    | none => exact htarget
    | some n =>
        cases hmerge : g.phiMerge? e.target with
        | none => simpa using htarget
        | some merge =>
            cases hpred : g.mergePredecessor? merge n with
            | none => simpa [hpred] using htarget
            | some q =>
                obtain ⟨e', he', rfl⟩ := Option.map_eq_some_iff.1 hpred
                have hmem : e' ∈ g.inputsWhere merge Role.isControl := List.mem_of_find?_eq_some he'
                have hcontrol : e'.source ∈ g.controlPredecessors merge := List.mem_map.2 ⟨e', hmem, rfl⟩
                simpa [hpred] using isFixed_of_hasControlSuccessor (hg.mem_controlPredecessors.1 hcontrol)
  · exact htarget

theorem Consistent.has_of_mem_useSites {g : Graph} (hg : g.Consistent) {id site : NodeId}
    (h : site ∈ g.useSites id) : g.has site = true := by
  obtain ⟨e, he, rfl⟩ := List.mem_map.1 h
  by_cases hphi : g.op e.target = .phi
  · exact has_of_isFixed (hg.isFixed_useSite hphi)
  · rw [useSite_eq_target hphi]
    exact hg.has_target (List.mem_of_mem_filter he)

/-- A floating node is one of the places that need its inputs. -/
theorem Consistent.mem_useSites_of_input {g : Graph} (hg : g.Consistent) {id input : NodeId}
    (hfloating : g.isFixed id = false) (hinput : input ∈ g.valueInputs id) : id ∈ g.useSites input := by
  obtain ⟨e, he, rfl⟩ := List.mem_map.1 hinput
  obtain ⟨he, hvalue⟩ := List.mem_filter.1 he
  have htarget : e.target = id := hg.target_eq id e he
  have hphi : g.op e.target ≠ .phi := by
    intro hop
    rw [isFixed_of_op (by rw [← htarget, hop]; rfl)] at hfloating
    cases hfloating
  refine List.mem_map.2 ⟨e, List.mem_filter.2 ⟨hg.mem_outputs he, hvalue⟩, ?_⟩
  rw [useSite_eq_target hphi, htarget]

theorem Consistent.has_of_mem_valueInputs {g : Graph} (hg : g.Consistent) {id input : NodeId}
    (hinput : input ∈ g.valueInputs id) : g.has input = true := by
  obtain ⟨e, he, rfl⟩ := List.mem_map.1 hinput
  exact hg.has_source (List.mem_of_mem_filter he)

/-! ## Elementary changes -/

/-- Graphs that store the same edges are equally consistent. -/
theorem Consistent.congr {g g' : Graph} (h : Consistent g) (hin : ∀ id, g'.inputs id = g.inputs id)
    (hout : ∀ id, g'.outputs id = g.outputs id) : Consistent g' where
  source_eq id e he := h.source_eq id e (hout id ▸ he)
  target_eq id e he := h.target_eq id e (hin id ▸ he)
  excess_eq e := by
    have := h.excess_eq e
    unfold excess at this ⊢
    rwa [hin, hout]

theorem consistent_empty : Consistent empty where
  source_eq id e he := by
    rw [outputs_eq_nil (has_empty id)] at he
    cases he
  target_eq id e he := by
    rw [inputs_eq_nil (has_empty id)] at he
    cases he
  excess_eq e := by
    rw [excess, outputs_eq_nil (has_empty e.source), inputs_eq_nil (has_empty e.target)]
    rfl

theorem inputs_addNode (g : Graph) (op : Op) (props : Props) (id : NodeId) :
    (g.addNode op props).2.inputs id = g.inputs id := by
  unfold inputs
  rw [node?_addNode]
  split
  · rename_i h
    rw [h, node?_addNode_fresh]
    rfl
  · rfl

theorem outputs_addNode (g : Graph) (op : Op) (props : Props) (id : NodeId) :
    (g.addNode op props).2.outputs id = g.outputs id := by
  unfold outputs
  rw [node?_addNode]
  split
  · rename_i h
    rw [h, node?_addNode_fresh]
    rfl
  · rfl

/-- A new node has no edges yet. -/
theorem Consistent.addNode {g : Graph} (h : Consistent g) (op : Op) (props : Props) :
    Consistent (g.addNode op props).2 :=
  h.congr (inputs_addNode g op props) (outputs_addNode g op props)

theorem Consistent.setProp {g : Graph} (h : Consistent g) (id : NodeId) (key : String)
    (value : Literal) : Consistent (g.setProp id key value) :=
  h.congr (inputs_setProp g id · key value) (outputs_setProp g id · key value)

/-- Linking an edge stores it once more at both ends. -/
theorem Consistent.linkEdge {g : Graph} (h : Consistent g) {e : Edge} (hsource : g.has e.source = true)
    (htarget : g.has e.target = true) : Consistent (g.linkEdge e) where
  source_eq id x hx := by
    rw [outputs_linkEdge g e id hsource] at hx
    split at hx
    · rename_i hid
      rcases List.mem_append.1 hx with hx | hx
      · exact h.source_eq id x hx
      · rw [List.mem_singleton.1 hx, hid]
    · exact h.source_eq id x hx
  target_eq id x hx := by
    rw [inputs_linkEdge g e id htarget] at hx
    split at hx
    · rename_i hid
      rcases List.mem_append.1 hx with hx | hx
      · exact h.target_eq id x hx
      · rw [List.mem_singleton.1 hx, hid]
    · exact h.target_eq id x hx
  excess_eq x := by
    have hx := h.count_eq x
    rw [excess, outputs_linkEdge g e _ hsource, inputs_linkEdge g e _ htarget]
    by_cases hxe : x = e
    · subst hxe
      simp [hx]
    · have hnot : ∀ l : List Edge, (l ++ [e]).count x = l.count x := fun l => by
        simp [List.count_append, Ne.symm hxe]
      split <;> split <;> simp [hnot, hx]

theorem Consistent.connect {g g' : Graph} (h : Consistent g) {e : Edge} (hconnect : g.connect e = .ok g') :
    Consistent g' := by
  obtain ⟨hsource, htarget, rfl⟩ := connect_eq_ok.1 hconnect
  exact h.linkEdge hsource htarget

/-! ## Linking many edges -/

/-- Link a list of edges, in order. -/
def linkAll (g : Graph) (edges : List Edge) : Graph := edges.foldl Graph.linkEdge g

@[simp] theorem linkAll_nil (g : Graph) : g.linkAll [] = g := rfl

@[simp] theorem linkAll_cons (g : Graph) (e : Edge) (edges : List Edge) :
    g.linkAll (e :: edges) = (g.linkEdge e).linkAll edges := rfl

theorem linkAll_append (g : Graph) (edges more : List Edge) :
    g.linkAll (edges ++ more) = (g.linkAll edges).linkAll more := List.foldl_append

/-- Both ends of every edge are in use. -/
def Linkable (g : Graph) (edges : List Edge) : Prop :=
  ∀ e ∈ edges, g.has e.source = true ∧ g.has e.target = true

instance (g : Graph) (edges : List Edge) : Decidable (Linkable g edges) :=
  inferInstanceAs (Decidable (∀ e ∈ edges, g.has e.source = true ∧ g.has e.target = true))

section LinkAll

variable {g : Graph} {edges : List Edge}

@[simp] theorem props_linkAll (g : Graph) (edges : List Edge) (id : NodeId) :
    (g.linkAll edges).props id = g.props id := by
  induction edges generalizing g with
  | nil => rfl
  | cons e rest ih => rw [linkAll_cons, ih, props_linkEdge]

@[simp] theorem has_linkAll (g : Graph) (edges : List Edge) (id : NodeId) :
    (g.linkAll edges).has id = g.has id := by
  induction edges generalizing g with
  | nil => rfl
  | cons e rest ih => rw [linkAll_cons, ih, has_linkEdge]

@[simp] theorem op_linkAll (g : Graph) (edges : List Edge) (id : NodeId) :
    (g.linkAll edges).op id = g.op id := by
  induction edges generalizing g with
  | nil => rfl
  | cons e rest ih => rw [linkAll_cons, ih, op_linkEdge]

/-- Linked edges come last at their targets, in order. -/
theorem inputs_linkAll (h : Linkable g edges) (id : NodeId) :
    (g.linkAll edges).inputs id = g.inputs id ++ edges.filter (·.target = id) := by
  induction edges generalizing g with
  | nil => simp
  | cons e rest ih =>
      have hrest : Linkable (g.linkEdge e) rest := fun x hx => by
        simpa using h x (List.mem_cons_of_mem e hx)
      rw [linkAll_cons, ih hrest, inputs_linkEdge g e id (h e List.mem_cons_self).2, List.filter_cons]
      by_cases hid : id = e.target
      · simp [hid]
      · simp [hid, Ne.symm hid]

/-- Linked edges come last at their sources, in order. -/
theorem outputs_linkAll (h : Linkable g edges) (id : NodeId) :
    (g.linkAll edges).outputs id = g.outputs id ++ edges.filter (·.source = id) := by
  induction edges generalizing g with
  | nil => simp
  | cons e rest ih =>
      have hrest : Linkable (g.linkEdge e) rest := fun x hx => by
        simpa using h x (List.mem_cons_of_mem e hx)
      rw [linkAll_cons, ih hrest, outputs_linkEdge g e id (h e List.mem_cons_self).1, List.filter_cons]
      by_cases hid : id = e.source
      · simp [hid]
      · simp [hid, Ne.symm hid]

theorem Consistent.linkAll (hg : Consistent g) (h : Linkable g edges) : Consistent (g.linkAll edges) := by
  induction edges generalizing g with
  | nil => exact hg
  | cons e rest ih =>
      obtain ⟨hsource, htarget⟩ := h e List.mem_cons_self
      exact ih (hg.linkEdge hsource htarget) fun x hx => by simpa using h x (List.mem_cons_of_mem e hx)

/-- Linking edges whose roles are not kept changes no kept edge. -/
theorem agree_linkAll {keep : Role → Bool} (h : Linkable g edges)
    (hroles : ∀ e ∈ edges, keep e.role = false) : Agree keep g (g.linkAll edges) := by
  induction edges generalizing g with
  | nil => exact .refl keep g
  | cons e rest ih =>
      obtain ⟨hsource, htarget⟩ := h e List.mem_cons_self
      refine (agree_linkEdge hsource htarget (hroles e List.mem_cons_self)).trans (ih ?_ ?_)
      · exact fun x hx => by simpa using h x (List.mem_cons_of_mem e hx)
      · exact fun x hx => hroles x (List.mem_cons_of_mem e hx)

end LinkAll

/-! ## Graphs from lists -/

/-- The graph with the given operations and no edges. -/
def ofOps (ops : List Op) : Graph := ops.foldl (fun g op => (g.addNode op .empty).2) empty

/-- The graph with the given operations, linked by the given edges. -/
def assemble (ops : List Op) (edges : List Edge) : Graph := (ofOps ops).linkAll edges

theorem consistent_assemble {ops : List Op} {edges : List Edge} (h : Linkable (ofOps ops) edges) :
    Consistent (assemble ops edges) := by
  have hops : ∀ (ops : List Op) (g : Graph), Consistent g →
      Consistent (ops.foldl (fun g op => (g.addNode op .empty).2) g) := by
    intro ops
    induction ops with
    | nil => exact fun _ hg => hg
    | cons op rest ih => exact fun g hg => ih _ (hg.addNode op .empty)
  exact (hops ops empty consistent_empty).linkAll h

/-- Two arms and what follows them: the sum of an argument with itself, or the
    receiver, as the argument says. -/
def diamond : Graph :=
  assemble [.start, .arg, .branch, .trace, .trace, .merge, .phi, .finish, .add, .self]
    [⟨0, 2, .control⟩, ⟨1, 2, .condition⟩, ⟨2, 3, .ifTrue⟩, ⟨2, 4, .ifFalse⟩,
      ⟨3, 5, .controlN 0⟩, ⟨4, 5, .controlN 1⟩, ⟨5, 6, .control⟩, ⟨6, 7, .control⟩,
      ⟨1, 8, .valueN 0⟩, ⟨1, 8, .valueN 1⟩, ⟨8, 6, .valueN 0⟩, ⟨9, 6, .valueN 1⟩, ⟨6, 7, .value⟩]

theorem consistent_diamond : diamond.Consistent := consistent_assemble (by decide)

end SeaOfNodes.Graph
