/-
  SeaOfNodes.Proofs.Schedule.ControlWalk

  Control in a graph, node by node.  A walk begins at a start and follows control
  edges.  A graph is in order for scheduling when walks come by the fixed nodes whose
  values they need.
-/
import SeaOfNodes.Proofs.Graph.Consistent
import SeaOfNodes.Proofs.Schedule.Closure

namespace SeaOfNodes

open Relation Schedule

/-- The nodes that control went through from a start on, the latest first. -/
inductive Graph.ControlWalk (g : Graph) : List NodeId → Prop
  | start {id : NodeId} (hop : g.op id = .start) : ControlWalk g [id]
  | step {a b : NodeId} {earlier : List NodeId} (h : ControlWalk g (a :: earlier))
      (hb : b ∈ g.controlSuccessors a) : ControlWalk g (b :: a :: earlier)

/-- The value of a node reaches an edge, directly or through floating nodes. -/
inductive Graph.Feeds (g : Graph) (p : NodeId) : Edge → Prop
  | direct {e : Edge} (he : e ∈ g.outputs p) (hvalue : e.role.isValue = true) : Feeds g p e
  | through {e e' : Edge} (h : Feeds g p e) (hfloating : g.isFloating e.target = true)
      (he : e' ∈ g.outputs e.target) (hvalue : e'.role.isValue = true) : Feeds g p e'

/-- A graph in order for scheduling.  Nothing is numbered yet, and every walk to a
    place that needs the value of a fixed node went through that node before.  A phi
    needs an operand at the end of a predecessor of its merge, which may be the node
    itself. -/
structure Graph.InOrder (g : Graph) : Prop where
  noSequence : ∀ id, (g.props id).has Props.sequence = false
  noRegister : ∀ id, (g.props id).has Props.register = false
  fixedBefore : ∀ p e, g.isFixed p = true → g.Feeds p e → ∀ earlier, g.ControlWalk (g.useSite e :: earlier) →
    p ∈ earlier ∨ (g.op e.target = .phi ∧ p = g.useSite e)

namespace Graph.ControlWalk

theorem agree {g g' : Graph} (h : Graph.SameProgram g g') {walk : List NodeId} :
    g'.ControlWalk walk ↔ g.ControlWalk walk := by
  constructor
  · intro hwalk
    induction hwalk with
    | start hop => exact .start (by rw [← h.op]; exact hop)
    | step _ hb ih => exact ih.step (by rw [← h.controlSuccessors]; exact hb)
  · intro hwalk
    induction hwalk with
    | start hop => exact .start (by rw [h.op]; exact hop)
    | step _ hb ih => exact ih.step (by rw [h.controlSuccessors]; exact hb)

variable {g : Graph}

theorem exists_start {walk : List NodeId} (h : g.ControlWalk walk) : ∃ x ∈ walk, g.op x = .start := by
  induction h with
  | start hop => exact ⟨_, List.mem_singleton_self _, hop⟩
  | step _ _ ih =>
      obtain ⟨x, hx, hop⟩ := ih
      exact ⟨x, List.mem_cons_of_mem _ hx, hop⟩

/-- Control leads from what a walk went through to where it is. -/
theorem controlPath {last : NodeId} {earlier : List NodeId} (h : g.ControlWalk (last :: earlier)) {x : NodeId}
    (hx : x ∈ last :: earlier) : ControlPath g x last := by
  generalize hwalk : last :: earlier = walk at h hx
  induction h generalizing last earlier with
  | start _ =>
      cases hwalk
      rw [List.mem_singleton.1 hx]
      exact .refl
  | step _ hb ih =>
      cases hwalk
      rcases List.mem_cons.1 hx with rfl | hx
      · exact .refl
      · exact (ih rfl hx).tail hb

/-- A walk can be led on along a control path. -/
theorem extend {a b : NodeId} {earlier : List NodeId} (h : g.ControlWalk (a :: earlier))
    (hpath : ControlPath g a b) :
    ∃ before, g.ControlWalk (b :: before) ∧
      ∀ x ∈ b :: before, x ∈ a :: earlier ∨ TransGen (fun x y => y ∈ g.controlSuccessors x) a x := by
  induction hpath with
  | refl => exact ⟨earlier, h, fun x hx => .inl hx⟩
  | @tail c b hpath hstep ih =>
      obtain ⟨before, hwalk, hmem⟩ := ih
      refine ⟨c :: before, hwalk.step hstep, fun x hx => ?_⟩
      rcases List.mem_cons.1 hx with rfl | hx
      · exact .inr (.tail' hpath hstep)
      · exact hmem x hx

/-- Of the nodes of a kind that a walk went through one is the latest. -/
theorem exists_latest {walk : List NodeId} (h : g.ControlWalk walk) {P : NodeId → Prop}
    (hsome : ∃ x ∈ walk, P x) : ∃ q ∈ walk, P q ∧ ∀ x ∈ walk, P x → ControlPath g x q := by
  induction h with
  | start _ =>
      obtain ⟨x, hx, hP⟩ := hsome
      refine ⟨x, hx, hP, fun y hy _ => ?_⟩
      rw [List.mem_singleton.1 hy, List.mem_singleton.1 hx]
      exact .refl
  | @step a b earlier hwalk hb ih =>
      -- The walk ends at such a node, or its latest one is that of the walk so far.
      by_cases hlast : P b
      · exact ⟨b, List.mem_cons_self, hlast, fun x hx _ => (hwalk.step hb).controlPath hx⟩
      · have hearlier : ∀ x ∈ b :: a :: earlier, P x → x ∈ a :: earlier := by
          intro x hx hP
          rcases List.mem_cons.1 hx with rfl | hx
          · exact absurd hP hlast
          · exact hx
        obtain ⟨x, hx, hP⟩ := hsome
        obtain ⟨q, hq, hPq, hall⟩ := ih ⟨x, hearlier x hx hP, hP⟩
        exact ⟨q, List.mem_cons_of_mem b hq, hPq, fun y hy hPy => hall y (hearlier y hy hPy) hPy⟩

end Graph.ControlWalk

/-- A graph is in order if nothing is numbered, and fixed nodes feed only fixed ones and
    only right behind them. -/
theorem Graph.inOrder_of_adjacent {g : Graph} (hg : g.Consistent)
    (hprops : ∀ id ∈ g.ids, (g.props id).has Props.sequence = false ∧ (g.props id).has Props.register = false)
    (hnext : ∀ p ∈ g.ids, g.isFixed p = true → ∀ e ∈ g.outputs p, e.role.isValue = true →
      g.isFixed e.target = true ∧ g.op (g.useSite e) ≠ .start ∧
        ∀ q ∈ g.controlPredecessors (g.useSite e), q = p) : g.InOrder := by
  have hall : ∀ id, (g.props id).has Props.sequence = false ∧ (g.props id).has Props.register = false := by
    intro id
    by_cases hid : g.has id = true
    · exact hprops id (mem_ids.2 hid)
    · have hnone : g.node? id = none := by simpa [has] using hid
      simp [props, hnone, Props.has, Props.get?, Props.empty]
  refine ⟨fun id => (hall id).1, fun id => (hall id).2, fun p e hp hfeeds earlier hwalk => .inl ?_⟩
  have hmem : p ∈ g.ids := mem_ids.2 (has_of_isFixed hp)
  -- What a fixed node feeds directly is fixed, so its value goes through no floating node.
  have hdirect : e ∈ g.outputs p ∧ e.role.isValue = true := by
    clear hwalk
    induction hfeeds with
    | direct he hvalue => exact ⟨he, hvalue⟩
    | through _ hfloating _ _ ih =>
        rw [isFloating, (hnext p hmem hp _ ih.1 ih.2).1] at hfloating
        cases hfloating
  obtain ⟨-, hstart, honly⟩ := hnext p hmem hp e hdirect.1 hdirect.2
  generalize hsite : g.useSite e = site at hwalk hstart honly
  cases hwalk with
  | start hop => exact absurd hop hstart
  | @step a _ earlier _ hb =>
      rw [honly a (hg.mem_controlPredecessors.2 hb)]
      exact List.mem_cons_self

end SeaOfNodes
