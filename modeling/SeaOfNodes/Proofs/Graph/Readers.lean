/-
  SeaOfNodes.Proofs.Graph.Readers

  Readers and control, edge by edge.  Which nodes read a node's value and whether it
  is fixed depend on the edges of a graph only, not on their order.
-/
import SeaOfNodes.Proofs.Graph.Multiplicity

namespace SeaOfNodes.Graph

theorem Filed.mem_consumers {g : Graph} (h : g.Filed) {n m : NodeId} :
    m ∈ g.consumers n ↔ ∃ role : Role, role.isValue = true ∧ 0 < g.multiplicity ⟨n, m, role⟩ := by
  simp only [consumers, outputsWhere, List.mem_map, List.mem_filter, multiplicity_pos]
  constructor
  · rintro ⟨e, ⟨he, hvalue⟩, rfl⟩
    have hsource := h.source_eq n e he
    subst hsource
    exact ⟨e.role, hvalue, he⟩
  · rintro ⟨role, hvalue, hmem⟩
    exact ⟨⟨n, m, role⟩, ⟨hmem, hvalue⟩, rfl⟩

theorem Consistent.has_of_multiplicity {g : Graph} (h : g.Consistent) {e : Edge} (he : 0 < g.multiplicity e) :
    g.has e.source = true ∧ g.has e.target = true :=
  ⟨has_of_mem_outputs (multiplicity_pos.1 he), h.has_target (multiplicity_pos.1 he)⟩

/-- A node reads exactly those that have it as a reader. -/
theorem Consistent.mem_valueInputs {g : Graph} (h : g.Consistent) {n m : NodeId} :
    n ∈ g.valueInputs m ↔ m ∈ g.consumers n := by
  rw [h.mem_consumers]
  simp only [valueInputs, inputsWhere, List.mem_map, List.mem_filter]
  constructor
  · rintro ⟨e, ⟨he, hvalue⟩, rfl⟩
    have htarget := h.target_eq m e he
    subst htarget
    exact ⟨e.role, hvalue, multiplicity_pos.2 (h.mem_outputs he)⟩
  · rintro ⟨role, hvalue, hmem⟩
    exact ⟨⟨n, m, role⟩, ⟨h.mem_inputs (multiplicity_pos.1 hmem), hvalue⟩, rfl⟩

/-- Control reaches a node. -/
def Entered (g : Graph) (n : NodeId) : Prop :=
  ∃ (m : NodeId) (role : Role), role.isControl = true ∧ 0 < g.multiplicity ⟨m, n, role⟩

/-- Control leaves a node. -/
def Leaves (g : Graph) (n : NodeId) : Prop :=
  ∃ (m : NodeId) (role : Role), role.isControl = true ∧ 0 < g.multiplicity ⟨n, m, role⟩

/-- Control reaches or leaves a node. -/
def Controlled (g : Graph) (n : NodeId) : Prop := g.Entered n ∨ g.Leaves n

theorem Filed.hasControlOutput_iff {g : Graph} (h : g.Filed) {n : NodeId} :
    g.hasControlOutput n = true ↔ g.Leaves n := by
  rw [hasControlOutput, List.any_eq_true]
  constructor
  · rintro ⟨e, he, hcontrol⟩
    have hsource := h.source_eq n e he
    subst hsource
    exact ⟨e.target, e.role, hcontrol, multiplicity_pos.2 he⟩
  · rintro ⟨m, role, hcontrol, hpos⟩
    exact ⟨⟨n, m, role⟩, multiplicity_pos.1 hpos, hcontrol⟩

/-- The edges that reach a node under a role of some kind. -/
theorem Consistent.any_inputs_iff {g : Graph} (h : g.Consistent) (kind : Role → Bool) {n : NodeId} :
    ((g.inputs n).any fun e => kind e.role) = true ↔
      ∃ (m : NodeId) (role : Role), kind role = true ∧ 0 < g.multiplicity ⟨m, n, role⟩ := by
  rw [List.any_eq_true]
  constructor
  · rintro ⟨e, he, hkind⟩
    have htarget := h.target_eq n e he
    subst htarget
    exact ⟨e.source, e.role, hkind, multiplicity_pos.2 (h.mem_outputs he)⟩
  · rintro ⟨m, role, hkind, hpos⟩
    exact ⟨⟨m, n, role⟩, h.mem_inputs (multiplicity_pos.1 hpos), hkind⟩

/-- A node is fixed by its operation, or by control that reaches or leaves it. -/
theorem Consistent.isFixed_iff {g : Graph} (h : g.Consistent) {n : NodeId} :
    g.isFixed n = true ↔ (g.op n).isFixed = true ∨ g.Controlled n := by
  rw [isFixed, Bool.or_eq_true, Bool.or_eq_true, or_assoc, h.any_inputs_iff, h.hasControlOutput_iff]
  exact Iff.rfl

/-- A graph has no schedule edges if none leaves any of its nodes. -/
theorem unscheduled_of_all {g : Graph}
    (h : ∀ id ∈ g.ids, ∀ e ∈ g.outputs id, e.role.isControl = true ∨ e.role.isValue = true) : g.Unscheduled := by
  intro e he
  have hmem := multiplicity_pos.1 he
  exact h e.source (mem_ids.2 (has_of_mem_outputs hmem)) e hmem

/-- A role that a branch's outcome has. -/
def isOutcome (role : Role) : Bool := role.name = .ifTrue || role.name = .ifFalse

/-- A node begins a block by its operation, or as what a branch leads to. -/
theorem Consistent.beginsBlock_iff {g : Graph} (h : g.Consistent) {n : NodeId} :
    g.beginsBlock n = true ↔ g.op n = .start ∨ g.op n = .merge ∨ ∃ (m : NodeId) (role : Role),
      isOutcome role = true ∧ 0 < g.multiplicity ⟨m, n, role⟩ := by
  rw [← h.any_inputs_iff, beginsBlock, Bool.or_eq_true, Bool.or_eq_true, decide_eq_true_eq, decide_eq_true_eq,
    or_assoc]
  exact Iff.rfl

/-- Every live floating node is read by another one. -/
def NoneDangles (g : Graph) : Prop := ∀ id, g.has id = true → g.isFloating id = true → g.consumers id ≠ []

theorem noneDangles_iff_all {g : Graph} :
    g.NoneDangles ↔ (g.ids.all fun id => g.isFixed id || !(g.consumers id).isEmpty) = true := by
  rw [List.all_eq_true]
  refine forall_congr' fun id => imp_congr mem_ids.symm ?_
  rw [Bool.or_eq_true, Bool.not_eq_true', List.isEmpty_eq_false_iff, isFloating, Bool.not_eq_true',
    ← Bool.not_eq_true]
  exact Decidable.or_iff_not_imp_left.symm

instance (g : Graph) : Decidable g.NoneDangles := decidable_of_iff' _ noneDangles_iff_all

/-- A node's value is read. -/
def Read (g : Graph) (n : NodeId) : Prop :=
  ∃ (m : NodeId) (role : Role), role.isValue = true ∧ 0 < g.multiplicity ⟨n, m, role⟩

theorem Consistent.noneDangles_iff {g : Graph} (h : g.Consistent) :
    g.NoneDangles ↔ ∀ id, g.has id = true → g.isFixed id = true ∨ g.Read id := by
  refine forall_congr' fun id => imp_congr_right fun _ => ?_
  have hread : g.consumers id ≠ [] ↔ g.Read id := by
    rw [← List.isEmpty_eq_false_iff, List.isEmpty_eq_false_iff_exists_mem]
    exact exists_congr fun m => h.mem_consumers
  rw [hread, isFloating, Bool.not_eq_true', ← Bool.not_eq_true]
  exact Decidable.or_iff_not_imp_left.symm

end SeaOfNodes.Graph
