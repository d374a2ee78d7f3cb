/-
  SeaOfNodes.Proofs.Graph.Calls

  The operations on graphs as data, so that something can be said of all of them at once:
  what a call names, when it is refused, and that a consistent graph stays one.
-/
import SeaOfNodes.Proofs.Graph.Surgery

namespace SeaOfNodes.Graph

/-- A call of an operation. -/
inductive Call where
  | addNode (op : Op) (props : Props)
  | connect (e : Edge)
  | disconnect (e : Edge)
  | replace (old new : NodeId)
  | replaceUses (old new : NodeId)
  | interdict (e : Edge) (mid : NodeId)
  | remove (id : NodeId)

namespace Call

/-- The nodes that a call names. -/
def nodes : Call → List NodeId
  | addNode _ _ => []
  | connect e | disconnect e => [e.source, e.target]
  | replace old new | replaceUses old new => [old, new]
  | interdict e mid => [mid, e.source, e.target]
  | remove id => [id]

/-- The edges that a call names. -/
def edges : Call → List Edge
  | disconnect e | interdict e _ => [e]
  | _ => []

/-- The pairs of nodes that a call needs to differ. -/
def pairs : Call → List (NodeId × NodeId)
  | replace old new | replaceUses old new => [(old, new)]
  | _ => []

/-- A call names a node or an edge that is not there, or one node where it needs two. -/
def Refused (g : Graph) (call : Call) : Prop :=
  (∃ id ∈ call.nodes, g.has id = false) ∨ (∃ e ∈ call.edges, e ∉ g.outputs e.source ∨ e ∉ g.inputs e.target) ∨
    ∃ p ∈ call.pairs, p.1 = p.2

/-- What a call does to a graph. -/
def apply (g : Graph) : Call → Except Misuse Graph
  | addNode op props => .ok (g.addNode op props).2
  | connect e => g.connect e
  | disconnect e => g.disconnect e
  | replace old new => g.replace old new
  | replaceUses old new => g.replaceUses old new
  | interdict e mid => g.interdict e mid
  | remove id => g.remove id

/-- The graph after a call, which is the one before if the call is refused. -/
def attempt (g : Graph) (call : Call) : Graph :=
  match call.apply g with
  | .ok g' => g'
  | .error _ => g

/-! ## Answers -/

theorem consistent_apply {g g' : Graph} (hg : g.Consistent) {call : Call} (h : call.apply g = .ok g') :
    g'.Consistent := by
  cases call with
  | addNode op props =>
      cases h
      exact hg.addNode op props
  | connect e => exact hg.connect h
  | disconnect e => exact hg.disconnect h
  | replace old new => exact hg.replace h
  | replaceUses old new => exact hg.replaceUses h
  | interdict e mid => exact hg.interdict h
  | remove id => exact hg.remove h

/-- An operation is refused. -/
def Fails (result : Except Misuse Graph) : Prop := ∃ cause, result = .error cause

theorem not_fails_ok (g : Graph) : ¬ Fails (.ok g) := by
  rintro ⟨cause, h⟩
  cases h

theorem fails_require {g : Graph} {id : NodeId} {next : Node → Except Misuse Graph} {Later : Prop}
    (h : ∀ n, g.node? id = some n → (Fails (next n) ↔ Later)) :
    Fails (g.require id >>= next) ↔ g.has id = false ∨ (g.has id = true ∧ Later) := by
  unfold Graph.require Graph.has
  cases hn : g.node? id with
  | none => simp [Fails, bind, Except.bind]
  | some n => simpa [bind, Except.bind] using h n hn

theorem fails_requireEdge (g : Graph) (e : Edge) (g' : Graph) :
    Fails (g.requireEdge e >>= fun _ => .ok g') ↔
      g.has e.source = false ∨ (g.has e.source = true ∧ (g.has e.target = false ∨ (g.has e.target = true ∧
        (e ∉ g.outputs e.source ∨ e ∉ g.inputs e.target)))) := by
  rw [Graph.requireEdge, bind_assoc]
  refine fails_require fun source hsource => ?_
  rw [bind_assoc]
  refine fails_require fun target htarget => ?_
  have hout : g.outputs e.source = source.outputs := by simp [Graph.outputs, hsource]
  have hin : g.inputs e.target = target.inputs := by simp [Graph.inputs, htarget]
  rw [hout, hin, ← not_and_or]
  by_cases hmem : e ∈ source.outputs ∧ e ∈ target.inputs
  · rw [if_pos hmem]
    exact iff_of_false (not_fails_ok g') (not_not_intro hmem)
  · rw [if_neg hmem]
    exact iff_of_true ⟨.missingEdge e, rfl⟩ hmem

/-- What takes two nodes fails if they are one. -/
theorem fails_iff_same {old new : NodeId} {cause : Misuse} {g' : Graph} :
    Fails (if old = new then throw cause else pure g') ↔ old = new := by
  by_cases hsame : old = new
  · rw [if_pos hsame]
    exact iff_of_true ⟨cause, rfl⟩ hsame
  · rw [if_neg hsame]
    exact iff_of_false (not_fails_ok g') hsame

/-- A call is refused exactly when it names something that is not there, or one node where it
    needs two. -/
theorem fails_apply_iff (g : Graph) (call : Call) : Fails (call.apply g) ↔ call.Refused g := by
  -- Once the nodes are there, only an absent edge or a pair that is not one is left.
  cases call with
  | addNode op props => simp [apply, Refused, nodes, edges, pairs, Fails]
  | connect e =>
      refine (fails_require fun _ _ => fails_require fun _ _ => iff_false_intro (not_fails_ok _)).trans ?_
      cases hs : g.has e.source <;> cases ht : g.has e.target <;> simp [Refused, nodes, edges, pairs, *]
  | disconnect e =>
      refine (fails_requireEdge g e _).trans ?_
      cases hs : g.has e.source <;> cases ht : g.has e.target <;> simp [Refused, nodes, edges, pairs, *]
  | replace old new =>
      refine (fails_require fun _ _ => fails_require fun _ _ => (?_ : _ ↔ old = new)).trans ?_
      · exact fails_iff_same
      · cases hs : g.has old <;> cases ht : g.has new <;> simp [Refused, nodes, edges, pairs, *]
  | replaceUses old new =>
      refine (fails_require fun _ _ => fails_require fun _ _ => (?_ : _ ↔ old = new)).trans ?_
      · exact fails_iff_same
      · cases hs : g.has old <;> cases ht : g.has new <;> simp [Refused, nodes, edges, pairs, *]
  | interdict e mid =>
      refine (fails_require fun _ _ => fails_requireEdge g e _).trans ?_
      cases hm : g.has mid <;> cases hs : g.has e.source <;> cases ht : g.has e.target <;>
        simp [Refused, nodes, edges, pairs, *]
  | remove id =>
      refine (fails_require fun _ _ => iff_false_intro (not_fails_ok _)).trans ?_
      cases hs : g.has id <;> simp [Refused, nodes, edges, pairs, *]

/-! ## Slots are never given up -/

theorem size_arena_foldl {step : Graph → Edge → Graph} (hstep : ∀ g e, (step g e).arena.size = g.arena.size)
    (g : Graph) (edges : List Edge) : (edges.foldl step g).arena.size = g.arena.size := by
  induction edges generalizing g with
  | nil => rfl
  | cons e rest ih => rw [List.foldl_cons, ih, hstep]

theorem size_arena_unlinkEdge (g : Graph) (e : Edge) : (g.unlinkEdge e).arena.size = g.arena.size := by
  simp [unlinkEdge]

theorem size_arena_moveInput (old new : NodeId) (g : Graph) (e : Edge) :
    (Graph.moveInput old new g e).arena.size = g.arena.size := by
  unfold Graph.moveInput
  dsimp only
  split <;> simp

theorem size_arena_moveOutput (old new : NodeId) (g : Graph) (e : Edge) :
    (Graph.moveOutput old new g e).arena.size = g.arena.size := by
  unfold Graph.moveOutput
  dsimp only
  split <;> simp

theorem size_arena_moveUse (new : NodeId) (g : Graph) (e : Edge) :
    (Graph.moveUse new g e).arena.size = g.arena.size := by
  simp [Graph.moveUse]

/-- A call adds a slot or none. -/
theorem size_arena_apply {g g' : Graph} {call : Call} (h : call.apply g = .ok g') :
    g.arena.size ≤ g'.arena.size := by
  cases call with
  | addNode op props =>
      cases h
      simp [Graph.addNode]
  | connect e =>
      obtain ⟨-, -, rfl⟩ := connect_eq_ok.1 h
      simp
  | disconnect e =>
      obtain ⟨_, -, h⟩ := bind_eq_ok.1 h
      cases h
      rw [size_arena_unlinkEdge]
  | replace old new =>
      obtain ⟨-, -, -, rfl⟩ := replace_eq_ok.1 h
      rw [size_arena_drop, size_arena_foldl (size_arena_moveOutput old new),
        size_arena_foldl (size_arena_moveInput old new)]
  | replaceUses old new =>
      obtain ⟨-, -, -, rfl⟩ := replaceUses_eq_ok h
      rw [size_arena_modify, size_arena_foldl (size_arena_moveUse new)]
  | interdict e mid =>
      obtain ⟨-, -, -, rfl⟩ := interdict_eq_ok h
      simp
  | remove id =>
      obtain ⟨-, g₁, rfl, rfl⟩ := remove_eq_ok h
      rw [size_arena_drop, size_arena_foldl size_arena_unlinkEdge, size_arena_foldl size_arena_unlinkEdge]

end Call

end SeaOfNodes.Graph
