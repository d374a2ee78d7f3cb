/-
  SeaOfNodes.Proofs.Graph.Following

  Every operation on a consistent arena does what the operation on graphs does.  An edge
  is stored at one end as often as at the other, and the edges of a node are moved or
  disconnected one after the other, so each is still found where the loop looks for it:
  no operation stops with half of its work done.
-/
import SeaOfNodes.Proofs.Graph.Arena
import SeaOfNodes.Proofs.Graph.Multiplicity

namespace SeaOfNodes

namespace Graph

/-! ## Edges are found when they are moved -/

theorem count_map_spent_le {old new : NodeId} (hne : old ≠ new) (edges : List Edge) {y : Edge}
    (hy : y.source = old ∨ y.target = old) : (edges.map (spent old new)).count y ≤ edges.count y := by
  induction edges with
  | nil => exact Nat.le_refl _
  | cons e rest ih =>
      have hone := count_spent_le hne (e := e) hy
      have hspent := count_cons_singleton (spent old new e) y (rest.map (spent old new))
      have hcons := count_cons_singleton e y rest
      rw [List.map_cons]
      omega

theorem count_front_lt {front back : List Edge} {e : Edge} {n : Nat} (h : (front ++ e :: back).count e ≤ n) :
    front.count e < n := by
  rw [List.count_append, List.count_cons_self] at h
  omega

/-- Moves that leave what reaches the target of an edge, and lower its excess by less than what
    is stored at its source, leave it stored there. -/
theorem mem_outputs_of_excess {g g' : Graph} {e : Edge} {moved : Nat} (hinputs : g'.inputs e.target = g.inputs e.target)
    (hexcess : g'.excess e = g.excess e + -(moved : Int)) (hmoved : moved < (g.outputs e.source).count e) :
    e ∈ g'.outputs e.source := by
  unfold excess at hexcess
  rw [hinputs] at hexcess
  exact List.count_pos_iff.1 (by omega)

/-- The same with the ends exchanged. -/
theorem mem_inputs_of_excess {g g' : Graph} {e : Edge} {moved : Nat}
    (houtputs : g'.outputs e.source = g.outputs e.source) (hexcess : g'.excess e = g.excess e + moved)
    (hmoved : moved < (g.inputs e.target).count e) : e ∈ g'.inputs e.target := by
  unfold excess at hexcess
  rw [houtputs] at hexcess
  exact List.count_pos_iff.1 (by omega)

section Moving

variable {old new : NodeId} (hne : old ≠ new) {g : Graph} (hnew : g.has new = true) {front back : List Edge} {e : Edge}
include hne hnew

/-- An edge that is still to be moved to the new node is found at its source. -/
theorem mem_outputs_moveInput (htarget : ∀ x ∈ front ++ e :: back, x.target = old)
    (hstored : ∀ x, x.source ≠ old → (front ++ e :: back).count x ≤ (g.outputs x.source).count x)
    (hsource : e.source ≠ old) : e ∈ (front.foldl (moveInput old new) g).outputs e.source := by
  have hmoved := moved_foldl_moveInput hne hnew (fun x hx => htarget x (List.mem_append_left _ hx)) fun x hx =>
    (List.Sublist.count_le x (List.sublist_append_left front (e :: back))).trans (hstored x hx)
  have hspent := count_map_spent_le hne front (y := e) (.inr (htarget e (by simp)))
  refine mem_outputs_of_excess ?_ (hmoved.excess_eq e) (hspent.trans_lt (count_front_lt (hstored e hsource)))
  rw [htarget e (by simp)]
  exact hmoved.inputs_old

/-- One that is still to be moved from the old node is found at its target. -/
theorem mem_inputs_moveOutput (hsource : ∀ x ∈ front ++ e :: back, x.source = old)
    (hstored : ∀ x, x.target ≠ old → (front ++ e :: back).count x ≤ (g.inputs x.target).count x)
    (htarget : e.target ≠ old) : e ∈ (front.foldl (moveOutput old new) g).inputs e.target := by
  have hmoved := moved_foldl_moveOutput hne hnew (fun x hx => hsource x (List.mem_append_left _ hx)) fun x hx =>
    (List.Sublist.count_le x (List.sublist_append_left front (e :: back))).trans (hstored x hx)
  have hspent := count_map_spent_le hne front (y := e) (.inl (hsource e (by simp)))
  refine mem_inputs_of_excess ?_ (hmoved.excess_eq e) (hspent.trans_lt (count_front_lt (hstored e htarget)))
  rw [hsource e (by simp)]
  exact hmoved.outputs_old

/-- So is one whose use is still to be moved. -/
theorem mem_inputs_moveUse (hsource : ∀ x ∈ front ++ e :: back, x.source = old)
    (hstored : ∀ x, (front ++ e :: back).count x ≤ (g.inputs x.target).count x) :
    e ∈ (front.foldl (moveUse new) g).inputs e.target := by
  have hmoved := movedUses_foldl hne hnew (fun x hx => hsource x (List.mem_append_left _ hx)) fun x =>
    (List.Sublist.count_le x (List.sublist_append_left front (e :: back))).trans (hstored x)
  refine mem_inputs_of_excess ?_ (hmoved.excess_eq e) (count_front_lt (hstored e))
  rw [hsource e (by simp)]
  exact hmoved.outputs_old

end Moving

/-- An edge that is stored can be disconnected. -/
theorem Consistent.disconnect_eq_ok {g : Graph} (h : g.Consistent) {e : Edge} (he : 0 < g.multiplicity e) :
    g.disconnect e = .ok (g.unlinkEdge e) := by
  have hout := multiplicity_pos.1 he
  have hin := h.mem_inputs hout
  obtain ⟨source, hsource⟩ := has_iff.1 (has_of_mem_outputs hout)
  obtain ⟨target, htarget⟩ := has_iff.1 (has_of_mem_inputs hin)
  have hstored : e ∈ source.outputs ∧ e ∈ target.inputs := by
    simpa [outputs, inputs, hsource, htarget] using And.intro hout hin
  rw [Graph.disconnect, requireEdge, require_eq_ok.2 hsource, require_eq_ok.2 htarget]
  simp [bind, Except.bind, hstored, pure, Except.pure]

end Graph

namespace Arena

open SeaOfNodes.Graph

/-! ## Following the operations of the graph -/

/-- A step leaves the graph that an operation gives, or stops for the same cause with nothing
    changed. -/
def Follows (a : Arena) (step : Step) : Except Misuse Graph → Prop
  | .ok g => ∃ t : Arena, step = .done t () ∧ t.graph = g ∧ t.Sound
  | .error cause => step = .failed a (.misuse cause)

section Follows

variable {a : Arena} {next : Cell → Step}

theorem Follows.require {id : NodeId} {next' : Node → Except Misuse Graph}
    (h : ∀ c, a.cell? id = some c → Follows a (next c) (next' c.toNode)) :
    Follows a (a.require id next) (a.graph.require id >>= next') := by
  rw [Arena.require, Graph.require, node?_graph]
  cases hc : a.cell? id with
  | none => rfl
  | some c => exact h c hc

theorem Follows.requireEdge {e : Edge} {next : Step} {next' : Except Misuse Graph}
    (h : e ∈ a.outputs e.source → e ∈ a.inputs e.target → Follows a next next') :
    Follows a (a.requireEdge e next) (a.graph.requireEdge e >>= fun _ => next') := by
  rw [Graph.requireEdge, bind_assoc]
  refine Follows.require fun source hsource => ?_
  rw [bind_assoc]
  refine Follows.require fun target htarget => ?_
  have hout : a.outputs e.source = source.outputs := by rw [outputs, hsource]; rfl
  have hin : a.inputs e.target = target.inputs := by rw [inputs, htarget]; rfl
  by_cases hmem : e ∈ source.outputs ∧ e ∈ target.inputs
  · rw [if_pos hmem, if_pos hmem]
    exact h (by rw [hout]; exact hmem.1) (by rw [hin]; exact hmem.2)
  · rw [if_neg hmem, if_neg hmem]
    rfl

end Follows

/-- A loop goes through when each of its steps does. -/
theorem forEach_done {step : Arena → Edge → Step} {onGraph : Graph → Edge → Graph} {a : Arena} {edges : List Edge}
    (ha : a.Sound)
    (hstep : ∀ t front e back, edges = front ++ e :: back → t.Sound → t.graph = front.foldl onGraph a.graph →
      Follows t (step t e) (.ok (onGraph t.graph e))) :
    Follows a (forEach step a edges) (.ok (edges.foldl onGraph a.graph)) := by
  induction edges generalizing a with
  | nil => exact ⟨a, rfl, rfl, ha⟩
  | cons e rest ih =>
      obtain ⟨t, hdone, hgraph, ht⟩ := hstep a [] e rest rfl ha rfl
      rw [forEach, hdone, Outcome.andThen_done, List.foldl_cons, ← hgraph]
      refine ih ht fun t' front e' back hsplit ht' hgraph' => ?_
      exact hstep t' (e :: front) e' back (by rw [hsplit]; rfl) ht' (by rw [hgraph', hgraph]; rfl)

section Rewrite

variable {a : Arena} {e new : Edge}

theorem rewriteOutput_eq_done {id : NodeId} (h : e ∈ a.outputs id) :
    a.rewriteOutput id e new = .done (a.update id (Node.redirectOutput e new)) () := by
  unfold outputs at h
  rw [rewriteOutput, require]
  cases hc : a.cell? id with
  | none => simp [hc] at h
  | some c => exact if_pos (by simpa [hc] using h)

theorem rewriteInput_eq_done {id : NodeId} (h : e ∈ a.inputs id) :
    a.rewriteInput id e new = .done (a.update id (Node.redirectInput e new)) () := by
  unfold inputs at h
  rw [rewriteInput, require]
  cases hc : a.cell? id with
  | none => simp [hc] at h
  | some c => exact if_pos (by simpa [hc] using h)

end Rewrite

section Moves

variable {a : Arena} (ha : a.Sound) {old new : NodeId} {e : Edge}
include ha

theorem follows_moveInput (h : e.source ≠ old → e ∈ a.outputs e.source) :
    Follows a (moveInput old new a e) (.ok (Graph.moveInput old new a.graph e)) := by
  unfold moveInput Graph.moveInput
  dsimp only
  by_cases hself : e.source = old
  · rw [if_pos hself, if_pos hself, Outcome.andThen_done]
    exact ⟨_, rfl, graph_update .., ha.update ..⟩
  · rw [if_neg hself, if_neg hself, rewriteOutput_eq_done (h hself), Outcome.andThen_done]
    exact ⟨_, rfl, by simp, (ha.update ..).update ..⟩

theorem follows_moveOutput (h : e.target ≠ old → e ∈ a.inputs e.target) :
    Follows a (moveOutput old new a e) (.ok (Graph.moveOutput old new a.graph e)) := by
  unfold moveOutput Graph.moveOutput
  dsimp only
  by_cases hself : e.target = old
  · rw [if_pos hself, if_pos hself, Outcome.andThen_done]
    exact ⟨_, rfl, graph_update .., ha.update ..⟩
  · rw [if_neg hself, if_neg hself, rewriteInput_eq_done (h hself), Outcome.andThen_done]
    exact ⟨_, rfl, by simp, (ha.update ..).update ..⟩

theorem follows_moveUse (h : e ∈ a.inputs e.target) :
    Follows a (moveUse new a e) (.ok (Graph.moveUse new a.graph e)) := by
  rw [moveUse, rewriteInput_eq_done h, Outcome.andThen_done]
  exact ⟨_, rfl, by simp [Graph.moveUse], (ha.update ..).update ..⟩

theorem follows_connect : Follows a (a.connect e) (a.graph.connect e) :=
  Follows.require fun _ _ => Follows.require fun _ _ => ⟨_, rfl, by simp [linkEdge], (ha.update ..).update ..⟩

theorem follows_disconnect : Follows a (a.disconnect e) (a.graph.disconnect e) :=
  Follows.requireEdge fun _ _ => ⟨_, rfl, by simp [unlinkEdge], (ha.update ..).update ..⟩

theorem follows_interdict {mid : NodeId} : Follows a (a.interdict e mid) (a.graph.interdict e mid) :=
  Follows.require fun _ _ => Follows.requireEdge fun _ _ =>
    ⟨_, rfl, by simp, (((ha.update ..).update ..).update ..).update ..⟩

end Moves

/-! ## The operations that move many edges -/

section MovingAll

variable {a : Arena} (ha : a.Sound) {old new : NodeId} (hne : old ≠ new) (hnew : a.graph.has new = true)
  {edges : List Edge}
include ha hne hnew

theorem follows_forEach_moveInput (htarget : ∀ e ∈ edges, e.target = old)
    (hstored : ∀ e, e.source ≠ old → edges.count e ≤ (a.graph.outputs e.source).count e) :
    Follows a (forEach (moveInput old new) a edges) (.ok (edges.foldl (Graph.moveInput old new) a.graph)) := by
  refine forEach_done ha fun t front e back hsplit ht hgraph => follows_moveInput ht fun hself => ?_
  rw [← outputs_graph, hgraph]
  exact mem_outputs_moveInput hne hnew (hsplit ▸ htarget) (hsplit ▸ hstored) hself

theorem follows_forEach_moveOutput (hsource : ∀ e ∈ edges, e.source = old)
    (hstored : ∀ e, e.target ≠ old → edges.count e ≤ (a.graph.inputs e.target).count e) :
    Follows a (forEach (moveOutput old new) a edges) (.ok (edges.foldl (Graph.moveOutput old new) a.graph)) := by
  refine forEach_done ha fun t front e back hsplit ht hgraph => follows_moveOutput ht fun hself => ?_
  rw [← inputs_graph, hgraph]
  exact mem_inputs_moveOutput hne hnew (hsplit ▸ hsource) (hsplit ▸ hstored) hself

theorem follows_forEach_moveUse (hsource : ∀ e ∈ edges, e.source = old)
    (hstored : ∀ e, edges.count e ≤ (a.graph.inputs e.target).count e) :
    Follows a (forEach (moveUse new) a edges) (.ok (edges.foldl (Graph.moveUse new) a.graph)) := by
  refine forEach_done ha fun t front e back hsplit ht hgraph => follows_moveUse ht ?_
  rw [← inputs_graph, hgraph]
  exact mem_inputs_moveUse hne hnew (hsplit ▸ hsource) (hsplit ▸ hstored)

end MovingAll

/-- What the graph of an arena knows of a node that has a cell. -/
theorem graph_of_cell? {a : Arena} {id : NodeId} {c : Cell} (hc : a.cell? id = some c) :
    a.graph.has id = true ∧ a.graph.inputs id = c.inputs ∧ a.graph.outputs id = c.outputs := by
  refine ⟨?_, ?_, ?_⟩
  · rw [has_graph, hc]
    rfl
  · rw [inputs_graph, inputs, hc]
    rfl
  · rw [outputs_graph, outputs, hc]
    rfl

section Loops

variable {a : Arena} (ha : a.Sound) (hg : a.graph.Consistent)
include ha hg

/-- Edges that are stored as often as they are listed can be disconnected one after the
    other. -/
theorem follows_forEach_disconnect {edges : List Edge} (hstored : ∀ e, edges.count e ≤ a.graph.multiplicity e) :
    Follows a (forEach disconnect a edges) (.ok (edges.foldl unlinkEdge a.graph)) := by
  refine forEach_done ha fun t front e back hsplit ht hgraph => ?_
  have hconsistent : t.graph.Consistent := by
    rw [hgraph]
    exact hg.foldl_unlinkEdge front
  have hcount := hstored e
  rw [hsplit, List.count_append, List.count_cons_self] at hcount
  have hpos : 0 < t.graph.multiplicity e := by
    rw [hgraph, multiplicity_foldl_unlinkEdge]
    omega
  rw [← hconsistent.disconnect_eq_ok hpos]
  exact follows_disconnect ht

theorem follows_remove {id : NodeId} : Follows a (a.remove id) (a.graph.remove id) := by
  refine Follows.require fun c hc => ?_
  obtain ⟨hlive, hinputs, -⟩ := graph_of_cell? hc
  have hstored : ∀ e, c.inputs.count e ≤ a.graph.multiplicity e := fun e => by
    rw [← hinputs]
    exact hg.count_inputs_le id e
  obtain ⟨t, hin, ht, htsound⟩ := follows_forEach_disconnect ha hg hstored
  have htg : t.graph.Consistent := by
    rw [ht]
    exact hg.foldl_unlinkEdge c.inputs
  -- An edge from the node to itself is gone by now, so what leaves it is read again.
  have hstored' : ∀ e, (t.outputs id).count e ≤ t.graph.multiplicity e := fun e => by
    rw [← outputs_graph, htg.multiplicity_eq]
    exact htg.count_outputs_le id e
  obtain ⟨u, hout, hu, husound⟩ := follows_forEach_disconnect htsound htg hstored'
  rw [hin, Outcome.andThen_done, hout, Outcome.andThen_done]
  have hulive : u.graph.has id = true := by
    rw [hu, (SameNodes.foldl sameNodes_unlinkEdge t.graph _).has, ht,
      (SameNodes.foldl sameNodes_unlinkEdge a.graph _).has, hlive]
  exact ⟨u.drop id, rfl, by rw [graph_drop, hu, ← outputs_graph, ht, hinputs], husound.drop hulive⟩

theorem follows_replace {old new : NodeId} : Follows a (a.replace old new) (a.graph.replace old new) := by
  refine Follows.require fun c hc => Follows.require fun d hd => ?_
  by_cases hne : old = new
  · rw [if_pos hne, if_pos hne]
    rw [← op_graph a hc]
    rfl
  · obtain ⟨hold, hinputs, houtputs⟩ := graph_of_cell? hc
    have hnew := (graph_of_cell? hd).1
    have htarget : ∀ e ∈ c.inputs, e.target = old := fun e he => hg.target_eq old e (by rw [hinputs]; exact he)
    have hsource : ∀ e ∈ c.outputs, e.source = old := fun e he => hg.source_eq old e (by rw [houtputs]; exact he)
    have hstored : ∀ e, e.source ≠ old → c.inputs.count e ≤ (a.graph.outputs e.source).count e := fun e _ => by
      rw [← hinputs]
      exact hg.count_inputs_le old e
    obtain ⟨t, hin, ht, htsound⟩ := follows_forEach_moveInput ha hne hnew htarget hstored
    have hmoved := moved_foldl_moveInput hne hnew htarget hstored
    -- Moving what reached the node leaves what leaves it in place, so the second loop runs
    -- over the edges that were there at the start.
    have htout : t.outputs old = c.outputs := by
      rw [← outputs_graph, ht, hmoved.outputs_old, houtputs]
    have htnew : t.graph.has new = true := by
      rw [ht, hmoved.has]
      exact hnew
    have hstored' : ∀ e, e.target ≠ old → c.outputs.count e ≤ (t.graph.inputs e.target).count e := fun e he => by
      rw [ht, ← houtputs, ← hinputs]
      exact hg.count_outputs_le_of_moved hne hnew he
    obtain ⟨u, hout, hu, husound⟩ := follows_forEach_moveOutput htsound hne htnew hsource hstored'
    have hulive : u.graph.has old = true := by
      rw [hu, (moved_foldl_moveOutput hne htnew hsource hstored').has, ht, hmoved.has]
      exact hold
    rw [if_neg hne, if_neg hne, hin, Outcome.andThen_done, htout, hout, Outcome.andThen_done]
    exact ⟨u.drop old, rfl, by rw [graph_drop, hu, ht], husound.drop hulive⟩

theorem follows_replaceUses {old new : NodeId} :
    Follows a (a.replaceUses old new) (a.graph.replaceUses old new) := by
  refine Follows.require fun c hc => Follows.require fun d hd => ?_
  by_cases hne : old = new
  · rw [if_pos hne, if_pos hne]
    rw [← op_graph a hc]
    rfl
  · obtain ⟨-, -, houtputs⟩ := graph_of_cell? hc
    have hnew := (graph_of_cell? hd).1
    have hsource : ∀ e ∈ c.outputs.filter fun e => e.role.isValue, e.source = old := fun e he =>
      hg.source_eq old e (by rw [houtputs]; exact List.mem_of_mem_filter he)
    have hstored : ∀ e, (c.outputs.filter fun e => e.role.isValue).count e ≤ (a.graph.inputs e.target).count e :=
      fun e => by
        refine (List.Sublist.count_le e List.filter_sublist).trans ?_
        rw [← houtputs]
        exact hg.count_outputs_le old e
    obtain ⟨t, huses, ht, htsound⟩ := follows_forEach_moveUse ha hne hnew hsource hstored
    rw [if_neg hne, if_neg hne, huses, Outcome.andThen_done]
    exact ⟨_, rfl, by rw [graph_update, ht], htsound.update ..⟩

end Loops

/-- On a consistent arena every call does what it does to the graph. -/
theorem follows_perform {a : Arena} (ha : a.Sound) (hg : a.graph.Consistent) (call : Call) :
    Follows a (a.perform call) (call.apply a.graph) := by
  cases call with
  | addNode op props => exact ⟨_, rfl, graph_addNode a op props, ha.addNode op props⟩
  | connect e => exact follows_connect ha
  | disconnect e => exact follows_disconnect ha
  | replace old new => exact follows_replace ha hg
  | replaceUses old new => exact follows_replaceUses ha hg
  | interdict e mid => exact follows_interdict ha
  | remove id => exact follows_remove ha hg

end Arena

end SeaOfNodes
