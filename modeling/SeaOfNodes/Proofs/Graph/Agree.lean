/-
  SeaOfNodes.Proofs.Graph.Agree

  Graphs that agree on their nodes and on the edges of some roles.  Scheduling
  only adds edges of its own roles, so the graph before and after a phase agree
  on all others, and every question that reads only those has the same answer.
-/
import SeaOfNodes.Proofs.Graph.Lookup

namespace SeaOfNodes.Graph

/-- Two graphs with the same nodes and operations, and the same edges in the same
    order as far as their roles are kept.  Properties may differ. -/
structure Agree (keep : Role → Bool) (g g' : Graph) : Prop where
  size : g'.arena.size = g.arena.size
  has : ∀ id, g'.has id = g.has id
  op : ∀ id, g'.op id = g.op id
  inputsWhere : ∀ id, g'.inputsWhere id keep = g.inputsWhere id keep
  outputsWhere : ∀ id, g'.outputsWhere id keep = g.outputsWhere id keep

/-- Everything but what the scheduler writes. -/
def unscheduled (role : Role) : Bool := !role.isSchedule

/-- Everything but the chains of blocks. -/
def unchained (role : Role) : Bool := role.name ≠ .localSchedule

theorem unscheduled_of_isControl {role : Role} (h : role.isControl = true) :
    unscheduled role = true := by
  cases role with
  | mk name index => cases name <;> simp_all [unscheduled, Role.isControl, Role.isSchedule,
      Role.Name.isControl, Role.Name.isSchedule]

theorem unscheduled_of_isValue {role : Role} (h : role.isValue = true) :
    unscheduled role = true := by
  cases role with
  | mk name index => cases name <;> simp_all [unscheduled, Role.isValue, Role.isSchedule,
      Role.Name.isValue, Role.Name.isSchedule]

theorem unchained_of_unscheduled {role : Role} (h : unscheduled role = true) :
    unchained role = true := by
  cases role with
  | mk name index => cases name <;> simp_all [unscheduled, unchained, Role.isSchedule,
      Role.Name.isSchedule]

namespace Agree

variable {keep : Role → Bool} {g g' : Graph}

theorem refl (keep : Role → Bool) (g : Graph) : Agree keep g g :=
  ⟨rfl, fun _ => rfl, fun _ => rfl, fun _ => rfl, fun _ => rfl⟩

theorem trans {g'' : Graph} (h : Agree keep g g') (h' : Agree keep g' g'') : Agree keep g g'' where
  size := h'.size.trans h.size
  has id := (h'.has id).trans (h.has id)
  op id := (h'.op id).trans (h.op id)
  inputsWhere id := (h'.inputsWhere id).trans (h.inputsWhere id)
  outputsWhere id := (h'.outputsWhere id).trans (h.outputsWhere id)

theorem inputs_eq (h : Agree (fun _ => true) g g') (id : NodeId) : g'.inputs id = g.inputs id := by
  simpa [Graph.inputsWhere] using h.inputsWhere id

theorem outputs_eq (h : Agree (fun _ => true) g g') (id : NodeId) : g'.outputs id = g.outputs id := by
  simpa [Graph.outputsWhere] using h.outputsWhere id

theorem inputsWhere_of_le (h : Agree keep g g') {fewer : Role → Bool}
    (hle : ∀ role, fewer role = true → keep role = true) (id : NodeId) :
    g'.inputsWhere id fewer = g.inputsWhere id fewer := by
  have hfilter : ∀ g : Graph, g.inputsWhere id fewer
      = (g.inputsWhere id keep).filter fun e => fewer e.role := by
    intro g
    rw [Graph.inputsWhere, Graph.inputsWhere, List.filter_filter]
    refine List.filter_congr fun e _ => ?_
    have := hle e.role
    cases hf : fewer e.role <;> simp_all
  rw [hfilter g', hfilter g, h.inputsWhere]

theorem outputsWhere_of_le (h : Agree keep g g') {fewer : Role → Bool}
    (hle : ∀ role, fewer role = true → keep role = true) (id : NodeId) :
    g'.outputsWhere id fewer = g.outputsWhere id fewer := by
  have hfilter : ∀ g : Graph, g.outputsWhere id fewer
      = (g.outputsWhere id keep).filter fun e => fewer e.role := by
    intro g
    rw [Graph.outputsWhere, Graph.outputsWhere, List.filter_filter]
    refine List.filter_congr fun e _ => ?_
    have := hle e.role
    cases hf : fewer e.role <;> simp_all
  rw [hfilter g', hfilter g, h.outputsWhere]

/-- Graphs that agree on more roles agree on fewer. -/
theorem mono (h : Agree keep g g') {fewer : Role → Bool}
    (hle : ∀ role, fewer role = true → keep role = true) : Agree fewer g g' where
  size := h.size
  has := h.has
  op := h.op
  inputsWhere id := h.inputsWhere_of_le hle id
  outputsWhere id := h.outputsWhere_of_le hle id

theorem ids (h : Agree keep g g') : g'.ids = g.ids := ids_congr h.size h.has

theorem find (h : Agree keep g g') (op : Op) : g'.find op = g.find op := by
  unfold Graph.find
  rw [h.ids]
  exact List.filter_congr fun id _ => by rw [h.op]

theorem label (h : Agree keep g g') (id : NodeId) : g'.label id = g.label id := by
  unfold Graph.label
  rw [h.op]

theorem mem_inputs_iff (h : Agree keep g g') {id : NodeId} {e : Edge} (he : keep e.role = true) :
    e ∈ g'.inputs id ↔ e ∈ g.inputs id := by
  have hmem : ∀ g : Graph, e ∈ g.inputs id ↔ e ∈ g.inputsWhere id keep := by
    intro g
    simp [Graph.inputsWhere, he]
  rw [hmem g', hmem g, h.inputsWhere]

theorem mem_outputs_iff (h : Agree keep g g') {id : NodeId} {e : Edge} (he : keep e.role = true) :
    e ∈ g'.outputs id ↔ e ∈ g.outputs id := by
  have hmem : ∀ g : Graph, e ∈ g.outputs id ↔ e ∈ g.outputsWhere id keep := by
    intro g
    simp [Graph.outputsWhere, he]
  rw [hmem g', hmem g, h.outputsWhere]

end Agree

/-! ## Changes that graphs agree across -/

/-- Setting a property changes no edge. -/
theorem agree_setProp (keep : Role → Bool) (g : Graph) (id : NodeId) (key : String)
    (value : Literal) : Agree keep g (g.setProp id key value) where
  size := by simp
  has := by simp
  op := by simp
  inputsWhere := by simp [Graph.inputsWhere]
  outputsWhere := by simp [Graph.outputsWhere]

/-- Linking an edge of a role that is not kept changes no kept edge. -/
theorem agree_linkEdge {keep : Role → Bool} {g : Graph} {e : Edge}
    (hsource : g.has e.source = true) (htarget : g.has e.target = true)
    (hrole : keep e.role = false) : Agree keep g (g.linkEdge e) where
  size := by simp
  has := by simp
  op := by simp
  inputsWhere id := by
    unfold Graph.inputsWhere
    rw [inputs_linkEdge g e id htarget]
    split <;> simp [hrole]
  outputsWhere id := by
    unfold Graph.outputsWhere
    rw [outputs_linkEdge g e id hsource]
    split <;> simp [hrole]

/-! ## Questions with the same answer -/

/-- Graphs that agree on everything but the schedule. -/
abbrev SameProgram (g g' : Graph) : Prop := Agree unscheduled g g'

theorem Agree.sameProgram {g g' : Graph} (h : Agree (fun _ => true) g g') : SameProgram g g' := h.mono fun _ _ => rfl

namespace Agree

variable {g g' : Graph} (h : SameProgram g g')
include h

theorem controlPredecessors (id : NodeId) :
    g'.controlPredecessors id = g.controlPredecessors id := by
  unfold Graph.controlPredecessors
  rw [h.inputsWhere_of_le fun _ => unscheduled_of_isControl]

theorem controlSuccessors (id : NodeId) : g'.controlSuccessors id = g.controlSuccessors id := by
  unfold Graph.controlSuccessors
  rw [h.outputsWhere_of_le fun _ => unscheduled_of_isControl]

theorem valueInputs (id : NodeId) : g'.valueInputs id = g.valueInputs id := by
  unfold Graph.valueInputs
  rw [h.inputsWhere_of_le fun _ => unscheduled_of_isValue]

theorem any_inputs (test : Role → Bool) (hle : ∀ role, test role = true → unscheduled role = true)
    (id : NodeId) : (g'.inputs id).any (fun e => test e.role) = (g.inputs id).any fun e => test e.role := by
  rw [Bool.eq_iff_iff, List.any_eq_true, List.any_eq_true]
  constructor
  · rintro ⟨e, he, hr⟩
    exact ⟨e, (h.mem_inputs_iff (hle _ hr)).1 he, hr⟩
  · rintro ⟨e, he, hr⟩
    exact ⟨e, (h.mem_inputs_iff (hle _ hr)).2 he, hr⟩

theorem hasControlOutput (id : NodeId) : g'.hasControlOutput id = g.hasControlOutput id := by
  unfold Graph.hasControlOutput
  rw [Bool.eq_iff_iff, List.any_eq_true, List.any_eq_true]
  constructor
  · rintro ⟨e, he, hr⟩
    exact ⟨e, (h.mem_outputs_iff (unscheduled_of_isControl hr)).1 he, hr⟩
  · rintro ⟨e, he, hr⟩
    exact ⟨e, (h.mem_outputs_iff (unscheduled_of_isControl hr)).2 he, hr⟩

theorem isFixed (id : NodeId) : g'.isFixed id = g.isFixed id := by
  unfold Graph.isFixed
  rw [h.op, h.hasControlOutput, h.any_inputs Role.isControl fun _ => unscheduled_of_isControl]

theorem isFloating (id : NodeId) : g'.isFloating id = g.isFloating id := by
  unfold Graph.isFloating
  rw [h.isFixed]

theorem beginsBlock (id : NodeId) : g'.beginsBlock id = g.beginsBlock id := by
  have hany := h.any_inputs (fun role => role.name = .ifTrue || role.name = .ifFalse)
    (fun role hr => unscheduled_of_isControl (by
      cases role with
      | mk name index => cases name <;> simp_all [Role.isControl, Role.Name.isControl])) id
  unfold Graph.beginsBlock
  rw [h.op, hany]

theorem phiMerge? (phi : NodeId) : g'.phiMerge? phi = g.phiMerge? phi := by
  unfold Graph.phiMerge?
  rw [h.controlPredecessors, funext h.op]

theorem mergePredecessor? (merge : NodeId) (n : Int64) :
    g'.mergePredecessor? merge n = g.mergePredecessor? merge n := by
  unfold Graph.mergePredecessor?
  rw [h.inputsWhere_of_le fun _ => unscheduled_of_isControl]

theorem useSite (e : Edge) : g'.useSite e = g.useSite e := by
  unfold Graph.useSite
  rw [h.op, h.phiMerge?, funext fun merge => funext fun n => h.mergePredecessor? merge n]

theorem useSites (id : NodeId) : g'.useSites id = g.useSites id := by
  unfold Graph.useSites
  rw [h.outputsWhere_of_le fun _ => unscheduled_of_isValue, funext h.useSite]

theorem filter_beginsBlock : g'.ids.filter g'.beginsBlock = g.ids.filter g.beginsBlock := by
  rw [h.ids]
  exact List.filter_congr fun id _ => h.beginsBlock id

end Agree

end SeaOfNodes.Graph
