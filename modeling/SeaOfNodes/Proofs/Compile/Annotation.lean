/-
  SeaOfNodes.Proofs.Compile.Annotation

  Scheduling and linearization only annotate.  Whether they succeed or not, the nodes and
  their operations are the given ones, the given edges come first at every node and in the
  given order, and what was written is a number, an anchor, a link of a chain or a register.
-/
import SeaOfNodes.Proofs.Schedule.Scheduled
import SeaOfNodes.Listing.Linearize

namespace SeaOfNodes

theorem Props.setEntry_setEntry (key : String) (a b : Literal) (entries : List (String × Literal)) :
    setEntry key b (setEntry key a entries) = setEntry key b entries := by
  induction entries with
  | nil => simp [setEntry]
  | cons entry rest ih =>
      obtain ⟨k, v⟩ := entry
      by_cases h : k = key
      · simp [setEntry, h]
      · simp [setEntry, h, ih]

/-- The last literal given to a name counts. -/
theorem Props.set_set (props : Props) (key : String) (a b : Literal) :
    (props.set key a).set key b = props.set key b :=
  congrArg Props.mk (setEntry_setEntry key a b props.entries)

/-! ## Scheduling -/

namespace Schedule

/-- The edges that scheduling may add to a graph: anchors of floating nodes and links of
    chains. -/
def IsAnnotation (g : Graph) (e : Edge) : Prop :=
  e.role = .globalSchedule ∧ g.isFloating e.source = true ∨ e.role = .localSchedule

/-- One graph is another with edges appended, in the order given, and with numbers on fixed
    nodes. -/
structure Annotated (g s : Graph) (added : List Edge) : Prop where
  size : s.arena.size = g.arena.size
  has : ∀ id, s.has id = g.has id
  op : ∀ id, s.op id = g.op id
  inputs : ∀ id, s.inputs id = g.inputs id ++ added.filter fun e => e.target = id
  outputs : ∀ id, s.outputs id = g.outputs id ++ added.filter fun e => e.source = id
  annotation : ∀ e ∈ added, IsAnnotation g e
  props : ∀ id, s.props id = g.props id ∨
    g.isFixed id = true ∧ ∃ n, s.props id = (g.props id).set Props.sequence (.int n)

namespace Annotated

variable {g s : Graph} {added : List Edge}

theorem refl (g : Graph) : Annotated g g [] where
  size := rfl
  has _ := rfl
  op _ := rfl
  inputs _ := (List.append_nil _).symm
  outputs _ := (List.append_nil _).symm
  annotation _ he := by cases he
  props _ := .inl rfl

theorem number (h : Annotated g s added) {id : NodeId} (hfixed : g.isFixed id = true) (n : Int64) :
    Annotated g (s.setProp id Props.sequence (.int n)) added where
  size := by rw [Graph.size_arena_setProp, h.size]
  has x := by rw [Graph.has_setProp, h.has]
  op x := by rw [Graph.op_setProp, h.op]
  inputs x := by rw [Graph.inputs_setProp, h.inputs]
  outputs x := by rw [Graph.outputs_setProp, h.outputs]
  annotation := h.annotation
  props x := by
    rw [Graph.props_setProp]
    split
    · rename_i hx
      obtain rfl : x = id := hx.1
      refine .inr ⟨hfixed, n, ?_⟩
      rcases h.props x with hsame | ⟨-, m, hset⟩
      · rw [hsame]
      · rw [hset, Props.set_set]
    · exact h.props x

theorem link (h : Annotated g s added) {e : Edge} (hsource : s.has e.source = true) (htarget : s.has e.target = true)
    (he : IsAnnotation g e) : Annotated g (s.linkEdge e) (added ++ [e]) where
  size := by rw [Graph.size_arena_linkEdge, h.size]
  has x := by rw [Graph.has_linkEdge, h.has]
  op x := by rw [Graph.op_linkEdge, h.op]
  inputs x := by
    rw [Graph.inputs_linkEdge s e x htarget, List.filter_append, ← List.append_assoc, ← h.inputs]
    by_cases hx : x = e.target
    · simp [hx]
    · simp [hx, Ne.symm hx]
  outputs x := by
    rw [Graph.outputs_linkEdge s e x hsource, List.filter_append, ← List.append_assoc, ← h.outputs]
    by_cases hx : x = e.source
    · simp [hx]
    · simp [hx, Ne.symm hx]
  annotation x hx := by
    rcases List.mem_append.1 hx with hx | hx
    · exact h.annotation x hx
    · rw [List.mem_singleton.1 hx]
      exact he
  props x := by
    rw [Graph.props_linkEdge]
    exact h.props x

/-- What was added is read by no question about the program. -/
theorem sameProgram (h : Annotated g s added) : Graph.SameProgram g s := by
  have hnone : ∀ part : Edge → Bool, ((added.filter part).filter fun e => Graph.unscheduled e.role) = [] := by
    intro part
    refine List.filter_eq_nil_iff.2 fun e he => ?_
    rcases h.annotation e (List.mem_of_mem_filter he) with ⟨hrole, -⟩ | hrole
    · rw [hrole]
      decide
    · rw [hrole]
      decide
  refine ⟨h.size, h.has, h.op, fun id => ?_, fun id => ?_⟩
  · rw [Graph.inputsWhere, h.inputs, List.filter_append, hnone, List.append_nil]
    rfl
  · rw [Graph.outputsWhere, h.outputs, List.filter_append, hnone, List.append_nil]
    rfl

end Annotated

/-- A graph is annotated by some edges, and all nodes of a list satisfy a test. -/
def AnnotatedWaiting (test : NodeId → Bool) (g s : Graph) (waiting : List NodeId) : Prop :=
  (∃ added, Annotated g s added) ∧ ∀ id ∈ waiting, test id = true

theorem AnnotatedWaiting.skip {test : NodeId → Bool} {g s t : Graph} {front back : List NodeId} {id : NodeId}
    (h : AnnotatedWaiting test g s (front ++ id :: back)) (ht : ∃ added, Annotated g t added) :
    AnnotatedWaiting test g t (front ++ back) :=
  ⟨ht, fun x hx => h.2 x (mem_of_mem_without hx)⟩

theorem annotatedWaiting_initial (test : NodeId → Bool) (g : Graph) : AnnotatedWaiting test g g (g.ids.filter test) :=
  ⟨⟨[], .refl g⟩, fun _ hid => (List.mem_filter.1 hid).2⟩

theorem annotated_orderFixed {g s : Graph} {result : Except Error Unit} (h : orderFixed g = ⟨s, result⟩) :
    ∃ added, Annotated g s added := by
  have hstep {s : Graph} {front back : List NodeId} {id : NodeId} {n : Int64}
      (h : AnnotatedWaiting g.isFixed g s (front ++ id :: back)) (_ : nextSequence s id = .ok (some n)) :
      AnnotatedWaiting g.isFixed g (s.setProp id Props.sequence (.int n)) (front ++ back) := by
    obtain ⟨added, hadded⟩ := h.1
    exact h.skip ⟨added, hadded.number (h.2 id (by simp)) n⟩
  have hstate : ∃ added, Annotated g (orderFixed g).state added := by
    refine Outcome.Ends.state (R := fun s => ∃ added, Annotated g s added) ?_
    refine (orderFixed_ends hstep (annotatedWaiting_initial g.isFixed g)).mono (fun _ _ h => h.1) ?_
    rintro s cause ⟨waiting, h, -⟩
    exact h.1
  rwa [h] at hstate

theorem annotated_anchorFloating {g s : Graph} {added : List Edge} (h : Annotated g s added) {a : Anchoring}
    {result : Except Error Unit} (hanchor : anchorFloating s = ⟨a, result⟩) : ∃ added, Annotated g a.graph added := by
  have hstep {t : Graph} {front back : List NodeId} {id anchor : NodeId}
      (ht : AnnotatedWaiting g.isFloating g t (front ++ id :: back)) (_ : anchorFor t id = .ok (some anchor))
      (hid : t.has id = true) (hanchor : t.has anchor = true) :
      AnnotatedWaiting g.isFloating g (t.linkEdge (anchorEdge id anchor)) (front ++ back) := by
    obtain ⟨added, hadded⟩ := ht.1
    exact ht.skip ⟨_, hadded.link hid hanchor (.inl ⟨rfl, ht.2 id (by simp)⟩)⟩
  have hinitial : AnnotatedWaiting g.isFloating g s (s.ids.filter s.isFloating) := by
    refine ⟨⟨added, h⟩, fun id hid => ?_⟩
    rw [← h.sameProgram.isFloating]
    exact (List.mem_filter.1 hid).2
  have hstate : ∃ added, Annotated g (anchorFloating s).state.graph added := by
    refine Outcome.Ends.state (R := fun a : Anchoring => ∃ added, Annotated g a.graph added) ?_
    refine (anchorFloating_ends hstep hinitial).mono (fun _ _ ht => ht.1) ?_
    rintro a cause ⟨waiting, ht, -⟩
    exact ht.1
  rwa [hanchor] at hstate

theorem annotated_chainAll {g s : Graph} {added : List Edge} (h : Annotated g s added) {c : Chaining}
    {result : Except Error Unit} (hchain : chainAll s = ⟨c, result⟩) : ∃ added, Annotated g c.graph added := by
  have hstep {t : Graph} {tail id : NodeId} (ht : ∃ added, Annotated g t added) (htail : t.has tail = true)
      (hid : t.has id = true) : ∃ added, Annotated g (t.linkEdge (chainEdge tail id)) added := by
    obtain ⟨added, hadded⟩ := ht
    exact ⟨_, hadded.link htail hid (.inr rfl)⟩
  have hstate : ∃ added, Annotated g (chainAll s).state.graph added := by
    refine Outcome.Ends.state (R := fun c : Chaining => ∃ added, Annotated g c.graph added) ?_
    exact (chainAll_ends hstep ⟨added, h⟩).imp_failed fun _ _ ht => ht.1
  rwa [hchain] at hstate

/-- However a run ends, its graph is the given one with annotations. -/
theorem annotated_run (g : Graph) : ∃ added, Annotated g (run g).graph added := by
  have hends := run_ends g
  generalize (run g).failure? = failure?, (run g).graph = left at hends ⊢
  cases hends with
  | refused _ => exact ⟨[], .refl g⟩
  | order _ horder => exact annotated_orderFixed horder
  | anchors _ horder hanchor =>
      obtain ⟨_, hordered⟩ := annotated_orderFixed horder
      exact annotated_anchorFloating hordered hanchor
  | chains _ horder hanchor hchain =>
      obtain ⟨_, hordered⟩ := annotated_orderFixed horder
      obtain ⟨_, hanchored⟩ := annotated_anchorFloating hordered hanchor
      exact annotated_chainAll hanchored hchain
  | done _ horder hanchor hchain =>
      obtain ⟨_, hordered⟩ := annotated_orderFixed horder
      obtain ⟨_, hanchored⟩ := annotated_anchorFloating hordered hanchor
      exact annotated_chainAll hanchored hchain

/-- A graph that is refused is left alone. -/
theorem graph_of_refused {g : Graph} {cause : Error} (h : checkSchedulable g = .error cause) : (run g).graph = g := by
  rw [run, h]

end Schedule

/-! ## Linearization -/

namespace Listing

/-- One graph is another with registers on nodes that produce values and had none. -/
structure Registered (g s : Graph) : Prop where
  size : s.arena.size = g.arena.size
  has : ∀ id, s.has id = g.has id
  op : ∀ id, s.op id = g.op id
  inputs : ∀ id, s.inputs id = g.inputs id
  outputs : ∀ id, s.outputs id = g.outputs id
  props : ∀ id, s.props id = g.props id ∨ g.producesValue id = true ∧ (g.props id).has Props.register = false ∧
    ∃ r, s.props id = (g.props id).set Props.register (.int r)

namespace Registered

variable {g s : Graph}

theorem refl (g : Graph) : Registered g g :=
  ⟨rfl, fun _ => rfl, fun _ => rfl, fun _ => rfl, fun _ => rfl, fun _ => .inl rfl⟩

theorem number (h : Registered g s) {id : NodeId} (hneeds : needsRegister s id = true) (r : Int64) :
    Registered g (s.setProp id Props.register (.int r)) where
  size := by rw [Graph.size_arena_setProp, h.size]
  has x := by rw [Graph.has_setProp, h.has]
  op x := by rw [Graph.op_setProp, h.op]
  inputs x := by rw [Graph.inputs_setProp, h.inputs]
  outputs x := by rw [Graph.outputs_setProp, h.outputs]
  props x := by
    rw [Graph.props_setProp]
    split
    · rename_i hx
      obtain rfl : x = id := hx.1
      obtain ⟨hvalue, hnone⟩ : s.producesValue x = true ∧ (s.props x).has Props.register = false := by
        simpa [needsRegister] using hneeds
      rw [Graph.producesValue, h.op] at hvalue
      rcases h.props x with hsame | ⟨-, -, m, hset⟩
      · rw [hsame] at hnone ⊢
        exact .inr ⟨hvalue, hnone, r, rfl⟩
      · rw [hset, Props.has, Props.get?_set_self] at hnone
        cases hnone
    · exact h.props x

theorem numberNodes (h : Registered g s) (next : Int64) (ids : List NodeId) :
    Registered g (Listing.numberNodes s next ids) := by
  induction ids generalizing s next with
  | nil => exact h
  | cons id rest ih =>
      rw [Listing.numberNodes]
      split
      · rename_i hneeds
        exact ih (h.number hneeds next) (next + 1)
      · exact ih h next

end Registered

/-- However linearization ends, it leaves the given graph with registers. -/
theorem registered_linearize (g : Graph) : Registered g (linearize g).state := by
  rw [linearize]
  split
  · exact .refl g
  · exact Registered.numberNodes (.refl g) _ _

end Listing

/-- Scheduling and linearization only annotate, on every graph and whatever their outcome. -/
theorem run_linearize_annotate_only (g : Graph) :
    (∃ added, Schedule.Annotated g (Schedule.run g).graph added) ∧
      (∀ cause, Schedule.checkSchedulable g = .error cause → (Schedule.run g).graph = g) ∧
      Listing.Registered g (Listing.linearize g).state :=
  ⟨Schedule.annotated_run g, fun _ => Schedule.graph_of_refused, Listing.registered_linearize g⟩

end SeaOfNodes
