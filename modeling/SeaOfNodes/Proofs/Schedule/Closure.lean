/-
  SeaOfNodes.Proofs.Schedule.Closure

  A walk over a stack visits exactly what can be reached.  The fuel has to cover
  the stack and the successors of everything that is still unvisited: each step
  takes one entry off the stack, and a first visit moves the successors of a node
  from the second part of that sum to the first.
-/
import SeaOfNodes.Proofs.Graph.Agree
import SeaOfNodes.Schedule.Anchor
import SeaOfNodes.Schedule.Block
import Mathlib.Logic.Relation

namespace SeaOfNodes.Schedule

open Relation

variable {α : Type} [DecidableEq α]

/-- How many successors the unvisited members of a list have together. -/
def owed (next : α → List α) (visited : List α) : List α → Nat
  | [] => 0
  | x :: rest => (if x ∈ visited then 0 else (next x).length) + owed next visited rest

section Walk

variable {next : α → List α}

theorem owed_cons_le (next : α → List α) (x : α) (visited members : List α) :
    owed next (x :: visited) members ≤ owed next visited members := by
  induction members with
  | nil => exact Nat.le_refl _
  | cons y rest ih =>
      simp only [owed, List.mem_cons]
      by_cases hy : y ∈ visited
      · simp [hy, ih]
      · by_cases hxy : y = x
        · simp only [hxy, true_or, if_true]
          omega
        · simp only [hxy, hy, or_self, if_false]
          omega

/-- Visiting a member pays for its successors. -/
theorem owed_cons_of_mem {x : α} {visited members : List α} (hx : x ∈ members)
    (hnew : x ∉ visited) :
    owed next (x :: visited) members + (next x).length ≤ owed next visited members := by
  induction members with
  | nil => simp at hx
  | cons y rest ih =>
      simp only [owed, List.mem_cons]
      have hle := owed_cons_le next x visited rest
      by_cases hxy : y = x
      · subst hxy
        simp only [true_or, if_true, hnew, if_false]
        omega
      · have hrest : x ∈ rest := (List.mem_cons.1 hx).resolve_left fun h => hxy h.symm
        have := ih hrest
        simp only [hxy, false_or]
        omega

/-- A first visit leaves fuel enough: it moves what is owed for a node onto the stack. -/
theorem owed_visit_le {members : List α} (hmembers : ∀ x, next x ≠ [] → x ∈ members) {x : α}
    {stack visited : List α} {fuel : Nat} (hfuel : (x :: stack).length + owed next visited members ≤ fuel + 1)
    (hnew : x ∉ visited) : (next x ++ stack).length + owed next (x :: visited) members ≤ fuel := by
  have hpaid : owed next (x :: visited) members + (next x).length ≤ owed next visited members := by
    by_cases hnil : next x = []
    · rw [hnil]
      exact owed_cons_le next x visited members
    · exact owed_cons_of_mem (hmembers x hnil) hnew
  simp only [List.length_cons] at hfuel
  simp only [List.length_append]
  omega

theorem owed_nil_le {edges : α → List Edge} (members : List α)
    (hle : ∀ x, (next x).length ≤ (edges x).length) :
    owed next [] members ≤ (members.flatMap edges).length := by
  induction members with
  | nil => exact Nat.le_refl _
  | cons x rest ih =>
      have := hle x
      simp only [owed, List.not_mem_nil, if_false, List.flatMap_cons, List.length_append]
      omega

/-- What was visited stays visited. -/
theorem subset_visitAll (fuel : Nat) (stack visited : List α) :
    visited ⊆ visitAll next fuel stack visited := by
  fun_induction visitAll next fuel stack visited with
  | case1 => exact fun _ h => h
  | case2 => exact fun _ h => h
  | case3 fuel x stack visited _ ih => exact ih
  | case4 fuel x stack visited _ ih => exact fun y hy => ih (List.mem_cons_of_mem x hy)

/-- Whatever holds of the stack and passes to successors holds of everything
    visited. -/
theorem forall_mem_visitAll {P : α → Prop} (hstep : ∀ x, P x → ∀ y ∈ next x, P y) {fuel : Nat}
    {stack visited : List α} (hstack : ∀ x ∈ stack, P x) (hvisited : ∀ x ∈ visited, P x) :
    ∀ x ∈ visitAll next fuel stack visited, P x := by
  fun_induction visitAll next fuel stack visited with
  | case1 => exact hvisited
  | case2 => exact hvisited
  | case3 fuel x stack visited _ ih =>
      exact ih (fun y hy => hstack y (List.mem_cons_of_mem x hy)) hvisited
  | case4 fuel x stack visited _ ih =>
      have hx : P x := hstack x List.mem_cons_self
      refine ih ?_ ?_
      · intro y hy
        rcases List.mem_append.1 hy with hy | hy
        · exact hstep x hx y hy
        · exact hstack y (List.mem_cons_of_mem x hy)
      · intro y hy
        rcases List.mem_cons.1 hy with rfl | hy
        · exact hx
        · exact hvisited y hy

/-- With enough fuel the walk ends with a set that is closed under successors and
    holds the stack.  The invariant is that successors of visited nodes are
    visited or on the stack. -/
theorem visitAll_closed {members : List α} (hmembers : ∀ x, next x ≠ [] → x ∈ members) (fuel : Nat)
    (stack visited : List α) (hfuel : stack.length + owed next visited members ≤ fuel)
    (hinv : ∀ x ∈ visited, ∀ y ∈ next x, y ∈ visited ∨ y ∈ stack) :
    stack ⊆ visitAll next fuel stack visited ∧
      ∀ x ∈ visitAll next fuel stack visited, ∀ y ∈ next x, y ∈ visitAll next fuel stack visited := by
  fun_induction visitAll next fuel stack visited with
  | case1 stack visited =>
      have hnil : stack = [] := by
        rw [← List.length_eq_zero_iff]
        omega
      subst hnil
      exact ⟨by simp, fun x hx y hy => (hinv x hx y hy).resolve_right (by simp)⟩
  | case2 fuel visited => exact ⟨by simp, fun x hx y hy => (hinv x hx y hy).resolve_right (by simp)⟩
  | case3 fuel x stack visited hx ih =>
      -- The entry taken off the stack was visited before, which is all the invariant asks of it.
      have hrest := ih (by simp only [List.length_cons] at hfuel; omega) (by
        intro z hz y hy
        rcases hinv z hz y hy with h | h
        · exact .inl h
        · rcases List.mem_cons.1 h with rfl | h
          · exact .inl hx
          · exact .inr h)
      refine ⟨List.cons_subset.2 ⟨?_, hrest.1⟩, hrest.2⟩
      exact subset_visitAll fuel stack visited hx
  | case4 fuel x stack visited hx ih =>
      -- The node becomes visited and its successors go onto the stack; what was on the stack stays.
      have hrest := ih (owed_visit_le hmembers hfuel hx) (by
        intro z hz y hy
        rcases List.mem_cons.1 hz with rfl | hz
        · exact .inr (List.mem_append_left _ hy)
        · rcases hinv z hz y hy with h | h
          · exact .inl (List.mem_cons_of_mem x h)
          · rcases List.mem_cons.1 h with rfl | h
            · exact .inl List.mem_cons_self
            · exact .inr (List.mem_append_right _ h))
      refine ⟨List.cons_subset.2 ⟨?_, fun y hy => hrest.1 (List.mem_append_right _ hy)⟩, hrest.2⟩
      exact subset_visitAll fuel _ _ List.mem_cons_self

/-- With enough fuel exactly what can be reached from the root is visited. -/
theorem mem_visitAll_iff {members : List α} (hmembers : ∀ x, next x ≠ [] → x ∈ members) {fuel : Nat}
    (hfuel : owed next [] members < fuel) {root x : α} :
    x ∈ visitAll next fuel [root] [] ↔ ReflTransGen (fun a b => b ∈ next a) root x := by
  constructor
  · intro h
    exact forall_mem_visitAll (P := fun y => ReflTransGen (fun a b => b ∈ next a) root y)
      (fun a ha b hb => ha.tail hb) (by simp [ReflTransGen.refl]) (by simp) x h
  · intro h
    have hclosed := visitAll_closed hmembers fuel [root] []
      (by simp only [List.length_singleton]; omega) (by simp)
    induction h with
    | refl => exact hclosed.1 List.mem_cons_self
    | tail _ hstep ih => exact hclosed.2 _ ih _ hstep

/-- A walk meets a goal exactly when it visits it. -/
theorem meets_eq_true_iff {goal : α} (fuel : Nat) (stack visited : List α) (hgoal : goal ∉ visited) :
    meets next goal fuel stack visited = true ↔ goal ∈ visitAll next fuel stack visited := by
  fun_induction meets next goal fuel stack visited with
  | case1 stack visited => simp [visitAll, hgoal]
  | case2 fuel visited _ => cases fuel <;> simp [visitAll, hgoal]
  | case3 fuel stack visited =>
      rw [visitAll, if_neg hgoal]
      exact iff_of_true rfl (subset_visitAll fuel _ _ List.mem_cons_self)
  | case4 fuel x stack visited hne hx ih =>
      rw [visitAll, if_pos hx]
      exact ih hgoal
  | case5 fuel x stack visited hne hx ih =>
      rw [visitAll, if_neg hx]
      exact ih (by simp [hgoal, Ne.symm hne])

end Walk

/-! ## Control flow -/

/-- Control leads from one node to another, possibly in no step. -/
def ControlPath (g : Graph) : NodeId → NodeId → Prop :=
  ReflTransGen fun a b => b ∈ g.controlSuccessors a

/-- A node without a place in the graph has no successors. -/
theorem mem_ids_of_controlSuccessors {g : Graph} (id : NodeId) (h : g.controlSuccessors id ≠ []) :
    id ∈ g.ids := by
  obtain ⟨target, htarget⟩ := List.exists_mem_of_ne_nil _ h
  simp only [Graph.controlSuccessors, Graph.outputsWhere, List.mem_map, List.mem_filter] at htarget
  obtain ⟨e, ⟨he, -⟩, -⟩ := htarget
  exact Graph.mem_ids.2 (Graph.has_of_mem_outputs he)

/-- The search for a control path decides whether there is one. -/
theorem controlReaches_iff {g : Graph} {source target : NodeId} :
    controlReaches g source target = true ↔ ControlPath g source target := by
  -- There are no more successors than edges, so the bound of the search covers them.
  have howed : owed g.controlSuccessors [] g.ids ≤ (g.ids.flatMap g.outputs).length := by
    refine owed_nil_le g.ids fun id => ?_
    rw [Graph.controlSuccessors, List.length_map]
    exact List.length_filter_le ..
  rw [controlReaches, meets_eq_true_iff _ _ _ (by simp),
    mem_visitAll_iff mem_ids_of_controlSuccessors (by unfold edgeCount; omega)]
  rfl

theorem ControlPath.agree {g g' : Graph} (h : Graph.SameProgram g g') :
    ControlPath g' = ControlPath g := by
  unfold ControlPath
  rw [funext h.controlSuccessors]

/-! ## Blocks -/

/-- A node belongs to the block that `first` begins. -/
def InBlock (g : Graph) (first : NodeId) : NodeId → Prop :=
  ReflTransGen (fun a b => b ∈ blockNeighbours g first a) first

theorem length_blockNeighbours_le (g : Graph) (first id : NodeId) :
    (blockNeighbours g first id).length ≤ (g.inputs id ++ g.outputs id).length := by
  have hin : (g.inputsNamed id .globalSchedule).length ≤ (g.inputs id).length := List.length_filter_le ..
  have hout : ((g.outputsWhere id Role.isControl).filter (staysInBlock g)).length
      ≤ (g.outputs id).length :=
    (List.length_filter_le ..).trans (List.length_filter_le ..)
  rw [List.length_append]
  unfold blockNeighbours
  split
  · simp
  · simp only [List.length_append, List.length_map]
    split
    · simp only [List.length_nil]
      omega
    · simp only [List.length_map]
      omega

/-- A node without a place in the graph has no neighbours. -/
theorem mem_ids_of_blockNeighbours {g : Graph} {first : NodeId} (id : NodeId) (h : blockNeighbours g first id ≠ []) :
    id ∈ g.ids := by
  rw [Graph.mem_ids]
  by_contra hdead
  have hlen := length_blockNeighbours_le g first id
  have hno : g.node? id = none := by simpa [Graph.has] using hdead
  simp only [Graph.inputs, Graph.outputs, hno, Option.map_none, Option.getD_none, List.append_nil,
    List.length_nil, Nat.le_zero_eq, List.length_eq_zero_iff] at hlen
  exact h hlen

/-- The members of a block are the live nodes that belong to it. -/
theorem mem_blockMembers {g : Graph} {first id : NodeId} :
    id ∈ blockMembers g first ↔ g.has id = true ∧ InBlock g first id := by
  -- Each neighbour is found through one end of an edge, so the bound covers them.
  have howed : owed (blockNeighbours g first) [] g.ids ≤ edgeEnds g := by
    unfold edgeEnds
    exact owed_nil_le g.ids (length_blockNeighbours_le g first)
  simp only [blockMembers, List.mem_filter, decide_eq_true_eq, Graph.mem_ids]
  rw [mem_visitAll_iff mem_ids_of_blockNeighbours (by omega)]
  rfl

theorem nodup_blockMembers (g : Graph) (first : NodeId) : (blockMembers g first).Nodup :=
  g.nodup_ids.filter _

end SeaOfNodes.Schedule
