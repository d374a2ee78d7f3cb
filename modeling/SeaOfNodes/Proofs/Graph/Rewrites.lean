/-
  SeaOfNodes.Proofs.Graph.Rewrites

  The small rewrites of which lowering is made: a new node is spliced onto an edge, a node
  is put in control flow between two others, and a new node takes the place of an old one.
  Each says what becomes of the nodes, of the edges and of the order in which they reach a
  node, and from that what becomes of control, of readers and of the nodes that begin a
  block.
-/
import SeaOfNodes.Proofs.Graph.Positions
import SeaOfNodes.Proofs.Graph.Readers

namespace SeaOfNodes

theorem Role.isValue_of_isControl {role : Role} (h : role.isControl = true) : role.isValue = false := by
  cases hname : role.name <;> simp_all [Role.isControl, Role.isValue, Role.Name.isControl, Role.Name.isValue]

theorem Role.isControl_of_isValue {role : Role} (h : role.isValue = true) : role.isControl = false := by
  by_contra hcontrol
  rw [isValue_of_isControl (by simpa using hcontrol)] at h
  cases h

namespace Graph

theorem isControl_of_isOutcome {role : Role} (h : isOutcome role = true) : role.isControl = true := by
  cases hname : role.name <;> simp_all [isOutcome, Role.isControl, Role.Name.isControl]

/-! ## The shapes of the steps -/

/-- A new node is spliced onto an edge: two edges take the place of one. -/
structure Spliced (g g' : Graph) (e : Edge) (mid : NodeId) : Prop where
  edge : 0 < g.multiplicity e
  mid_eq : mid = Int.ofNat g.arena.size
  size : g'.arena.size = g.arena.size + 1
  fresh : g.has mid = false
  has : ∀ id, g'.has id = true ↔ g.has id = true ∨ id = mid
  op : ∀ id, id ≠ mid → g'.op id = g.op id
  props : ∀ id, id ≠ mid → g'.props id = g.props id
  inputs : ∀ id, id ≠ mid →
    g'.inputs id = if id = e.target then replaceFirst e (spliceTail e mid) (g.inputs id) else g.inputs id
  newInputs : g'.inputs mid = [spliceHead e mid]
  head : 0 < g'.multiplicity (spliceHead e mid)
  tail : 0 < g'.multiplicity (spliceTail e mid)
  kept : ∀ x, 0 < g.multiplicity x → x = e ∨ 0 < g'.multiplicity x
  old : ∀ x, 0 < g'.multiplicity x → x = spliceHead e mid ∨ x = spliceTail e mid ∨ 0 < g.multiplicity x
  balance : ∀ x, x ≠ spliceHead e mid → x ≠ spliceTail e mid → g'.multiplicity x + [e].count x = g.multiplicity x

/-- A node is put in control flow between two others. -/
structure Sequenced (g g' : Graph) (before mid after : NodeId) : Prop where
  nodes : SameNodes g g'
  operands : ∀ id, g'.inputsWhere id Role.isValue = g.inputsWhere id Role.isValue
  entries : ∀ id, g'.inputsWhere id Role.isControl = g.inputsWhere id Role.isControl ++
    [(⟨before, mid, .control⟩ : Edge), ⟨mid, after, .control⟩].filter (·.target = id)
  edge : ∀ x, 0 < g'.multiplicity x ↔
    0 < g.multiplicity x ∨ x = ⟨before, mid, .control⟩ ∨ x = ⟨mid, after, .control⟩

/-- A new node takes the place of another. -/
structure Renamed (g g' : Graph) (old new : NodeId) : Prop where
  live : g.has old = true
  new_eq : new = Int.ofNat g.arena.size
  size : g'.arena.size = g.arena.size + 1
  fresh : g.has new = false
  has : ∀ id, g'.has id = true ↔ (g.has id = true ∧ id ≠ old) ∨ id = new
  op : ∀ id, id ≠ old → id ≠ new → g'.op id = g.op id
  props : ∀ id, id ≠ old → id ≠ new → g'.props id = g.props id
  inputs : ∀ id, id ≠ old → g'.inputs id = (g.inputs (rename new old id)).map (renameEdge old new)
  edge : ∀ x, 0 < g'.multiplicity x ↔ x.source ≠ old ∧ x.target ≠ old ∧
    0 < g.multiplicity ⟨rename new old x.source, rename new old x.target, x.role⟩

theorem spliceHead_of_isValue {e : Edge} (hvalue : e.role.isValue = true) (mid : NodeId) :
    spliceHead e mid = ⟨e.source, mid, .value⟩ := by
  rw [spliceHead, Role.isControl_of_isValue hvalue]
  rfl

theorem has_addNode_fresh (g : Graph) (op : Op) (props : Props) : g.has (g.addNode op props).1 = false := by
  rw [Graph.has, node?_addNode_fresh, Option.isSome_none]

/-- A graph with one node more, at which there are no edges. -/
structure Added (g g' : Graph) (new : NodeId) (op : Op) (props : Props) : Prop where
  new_eq : new = Int.ofNat g.arena.size
  size : g'.arena.size = g.arena.size + 1
  fresh : g.has new = false
  has : ∀ id, g'.has id = true ↔ g.has id = true ∨ id = new
  op : ∀ id, g'.op id = if id = new then op else g.op id
  props : ∀ id, g'.props id = if id = new then props else g.props id
  inputs : ∀ id, g'.inputs id = g.inputs id
  outputs : ∀ id, g'.outputs id = g.outputs id
  multiplicity : ∀ e, g'.multiplicity e = g.multiplicity e

theorem added_addNode (g : Graph) (op : Op) (props : Props) :
    Added g (g.addNode op props).2 (g.addNode op props).1 op props where
  new_eq := rfl
  size := size_arena_addNode g op props
  fresh := has_addNode_fresh g op props
  has := fun id => by rw [has_addNode, Bool.or_eq_true, decide_eq_true_eq, or_comm]
  op := op_addNode g op props
  props := props_addNode g op props
  inputs := inputs_addNode g op props
  outputs := outputs_addNode g op props
  multiplicity := multiplicity_addNode g op props

/-- What a balance of edges says of the edges that there are, when two others come for
    one of them. -/
theorem edges_of_balance {m m' : Edge → Nat} {e head tail : Edge} (hhead : head ≠ e) (htail : tail ≠ e)
    (hlaw : ∀ x, m' x + [e].count x = m x + [head].count x + [tail].count x) :
    0 < m' head ∧ 0 < m' tail ∧ (∀ x, 0 < m x → x = e ∨ 0 < m' x) ∧
      ∀ x, x ≠ head → x ≠ tail → m' x + [e].count x = m x := by
  have hself : ∀ x : Edge, [x].count x = 1 := fun x => by simp
  refine ⟨?_, ?_, fun x hx => or_iff_not_imp_left.2 fun hxe => ?_, fun x hxhead hxtail => ?_⟩
  · have hcount := hlaw head
    rw [count_singleton_eq_zero hhead, hself] at hcount
    omega
  · have hcount := hlaw tail
    rw [count_singleton_eq_zero htail, hself] at hcount
    omega
  · have hcount := hlaw x
    rw [count_singleton_eq_zero hxe] at hcount
    omega
  · rw [hlaw, count_singleton_eq_zero hxhead, count_singleton_eq_zero hxtail]
    rfl

namespace Added

variable {g g₁ g' : Graph} {new : NodeId} {op : Op} {props : Props} (h : Added g g₁ new op props)
include h

theorem ne_new {id : NodeId} (hid : g.has id = true) : id ≠ new := by
  rintro rfl
  rw [h.fresh] at hid
  cases hid

/-- Splicing the added node onto an edge. -/
theorem spliced (hg : g.Consistent) {e : Edge} (hsplice : g₁.interdict e new = .ok g') : Spliced g g' e new := by
  obtain ⟨-, hedge, hnodes, hlaw⟩ := interdict_law hsplice
  have hinputs := inputs_interdict hsplice
  simp only [h.multiplicity] at hedge hlaw
  simp only [h.inputs] at hinputs
  obtain ⟨hsource, htarget⟩ := hg.has_of_multiplicity hedge
  -- Neither new edge is the one that goes, so the balance of edges tells them all apart.
  obtain ⟨hhead, htail, hkept, hbalance⟩ := edges_of_balance
    (fun heq => h.ne_new htarget (congrArg Edge.target heq).symm)
    (fun heq => h.ne_new hsource (congrArg Edge.source heq).symm) hlaw
  exact {
    edge := hedge
    mid_eq := h.new_eq
    size := by rw [hnodes.size, h.size]
    fresh := h.fresh
    has := fun id => by rw [hnodes.has, h.has]
    op := fun id hid => by rw [hnodes.op, h.op, if_neg hid]
    props := fun id hid => by rw [hnodes.props, h.props, if_neg hid]
    inputs := fun id hid => by rw [hinputs, if_neg hid, List.append_nil]
    newInputs := by
      rw [hinputs, if_neg (h.ne_new htarget).symm, if_pos rfl, inputs_eq_nil h.fresh, List.nil_append]
    head := hhead
    tail := htail
    kept := hkept
    old := by
      intro x hx
      refine or_iff_not_imp_left.2 fun hxhead => or_iff_not_imp_left.2 fun hxtail => ?_
      have hcount := hbalance x hxhead hxtail
      omega
    balance := hbalance }

/-- Putting the added node in the place of another. -/
theorem renamed (hg₁ : g₁.Consistent) {old : NodeId} (hreplace : g₁.replace old new = .ok g') :
    Renamed g g' old new := by
  have hin : g₁.inputs new = [] := by rw [h.inputs, inputs_eq_nil h.fresh]
  have hout : g₁.outputs new = [] := by rw [h.outputs, outputs_eq_nil h.fresh]
  obtain ⟨-, hne, hlacks, hlaw⟩ := hg₁.replace_law hreplace hin hout
  exact {
    live := ((h.has old).1 hlacks.has_id).resolve_right hne
    new_eq := h.new_eq
    size := by rw [hlacks.size, h.size]
    fresh := h.fresh
    has := by
      intro id
      rw [hlacks.has, h.has, or_and_right, and_iff_left_of_imp (a := id = new)]
      rintro rfl
      exact hne.symm
    op := fun id hid hnew => by rw [hlacks.op id hid, h.op, if_neg hnew]
    props := fun id hid hnew => by rw [hlacks.props id hid, h.props, if_neg hnew]
    inputs := fun id hid => by rw [hg₁.inputs_replace hreplace hin hid, h.inputs]
    edge := by
      intro x
      rw [hlaw, h.multiplicity]
      split
      · rename_i hgone
        simp only [Nat.lt_irrefl, false_iff, not_and]
        intro hsource htarget
        exact absurd hgone (not_or.2 ⟨hsource, htarget⟩)
      · rename_i hgone
        obtain ⟨hsource, htarget⟩ := not_or.1 hgone
        simp [hsource, htarget] }

end Added

/-- Splicing a node that was just added. -/
theorem Consistent.spliced_of_interdict {g g' : Graph} (hg : g.Consistent) {op : Op} {props : Props} {e : Edge}
    (h : (g.addNode op props).2.interdict e (g.addNode op props).1 = .ok g') :
    Spliced g g' e (g.addNode op props).1 ∧ g'.op (g.addNode op props).1 = op ∧
      g'.props (g.addNode op props).1 = props := by
  have hadded := added_addNode g op props
  obtain ⟨-, -, hnodes, -⟩ := interdict_law h
  refine ⟨hadded.spliced hg h, ?_, ?_⟩
  · rw [hnodes.op, hadded.op, if_pos rfl]
  · rw [hnodes.props, hadded.props, if_pos rfl]

/-- Putting a node that was just added in the place of another. -/
theorem Consistent.renamed_of_replace {g g' : Graph} (hg : g.Consistent) {op : Op} {props : Props} {old : NodeId}
    (h : (g.addNode op props).2.replace old (g.addNode op props).1 = .ok g') :
    Renamed g g' old (g.addNode op props).1 ∧ g'.op (g.addNode op props).1 = op ∧
      g'.props (g.addNode op props).1 = props := by
  have hadded := added_addNode g op props
  have hrenamed := hadded.renamed (hg.addNode op props) h
  have hne := (hadded.ne_new hrenamed.live).symm
  have hlacks := lacks_of_replace h
  refine ⟨hrenamed, ?_, ?_⟩
  · rw [hlacks.op _ hne, hadded.op, if_pos rfl]
  · rw [hlacks.props _ hne, hadded.props, if_pos rfl]

theorem inputsWhere_linkEdge {g : Graph} {e : Edge} {keep : Role → Bool} (htarget : g.has e.target = true)
    (hrole : keep e.role = false) (id : NodeId) : (g.linkEdge e).inputsWhere id keep = g.inputsWhere id keep := by
  unfold inputsWhere
  rw [inputs_linkEdge g e id htarget]
  split <;> simp [hrole]

theorem inputsWhere_linkEdge_of_keep {g : Graph} {e : Edge} {keep : Role → Bool} (htarget : g.has e.target = true)
    (hrole : keep e.role = true) (id : NodeId) :
    (g.linkEdge e).inputsWhere id keep = g.inputsWhere id keep ++ [e].filter (·.target = id) := by
  unfold inputsWhere
  rw [inputs_linkEdge g e id htarget]
  by_cases hid : e.target = id
  · simp [hid, hrole]
  · simp [hid, Ne.symm hid]

theorem sequenced_of_connect {g joined g' : Graph} {before mid after : NodeId}
    (hjoined : g.connect ⟨before, mid, .control⟩ = .ok joined)
    (h : joined.connect ⟨mid, after, .control⟩ = .ok g') : Sequenced g g' before mid after := by
  obtain ⟨-, -, hnodes, hlaw⟩ := connect_law hjoined
  obtain ⟨-, -, hnodes', hlaw'⟩ := connect_law h
  obtain ⟨-, hmid, rfl⟩ := connect_eq_ok.1 hjoined
  obtain ⟨-, hafter, rfl⟩ := connect_eq_ok.1 h
  refine ⟨hnodes.trans hnodes', fun id => ?_, fun id => ?_, fun x => ?_⟩
  · rw [inputsWhere_linkEdge hafter rfl, inputsWhere_linkEdge hmid rfl]
  · rw [inputsWhere_linkEdge_of_keep hafter rfl, inputsWhere_linkEdge_of_keep hmid rfl, List.append_assoc, ← List.filter_append]
    rfl
  rw [hlaw', hlaw, Nat.add_pos_iff_pos_or_pos, Nat.add_pos_iff_pos_or_pos, List.count_pos_iff,
    List.count_pos_iff, List.mem_singleton, List.mem_singleton, or_assoc]

/-! ## Control and readers after a step -/

theorem op_ne_of_fresh {g : Graph} {id : NodeId} (h : g.has id = false) {op : Op} (hop : op ≠ .invalid) :
    g.op id ≠ op := by
  rintro rfl
  rw [has_of_op_ne_invalid hop] at h
  cases h

theorem Consistent.has_of_controlled {g : Graph} (h : g.Consistent) {n : NodeId} (hn : g.Controlled n) :
    g.has n = true := by
  obtain ⟨m, role, -, hpos⟩ | ⟨m, role, -, hpos⟩ := hn
  · exact (h.has_of_multiplicity hpos).2
  · exact (h.has_of_multiplicity hpos).1

section Spliced

variable {g g' : Graph} {e : Edge} {mid : NodeId} (h : Spliced g g' e mid)
include h

theorem Spliced.ne_mid {id : NodeId} (hid : g.has id = true) : id ≠ mid := by
  rintro rfl
  rw [h.fresh] at hid
  cases hid

section Value

variable (hvalue : e.role.isValue = true)
include hvalue

/-- Splicing a value edge leaves control as it was. -/
theorem Spliced.control_iff {x : Edge} (hx : x.role.isControl = true) :
    0 < g'.multiplicity x ↔ 0 < g.multiplicity x := by
  have hnot : ∀ {y : Edge}, y.role.isValue = true → x ≠ y := by
    rintro y hy rfl
    rw [Role.isValue_of_isControl hx] at hy
    cases hy
  have hhead : (spliceHead e mid).role.isValue = true := by
    rw [spliceHead_of_isValue hvalue]
    rfl
  constructor
  · intro hpos
    rcases h.old x hpos with hxhead | hxtail | hold
    · exact absurd hxhead (hnot hhead)
    · exact absurd hxtail (hnot hvalue)
    · exact hold
  · intro hpos
    exact (h.kept x hpos).resolve_left (hnot hvalue)

theorem Spliced.entered_iff {n : NodeId} : g'.Entered n ↔ g.Entered n :=
  exists_congr fun _ => exists_congr fun _ => and_congr_right fun hrole => h.control_iff hvalue hrole

theorem Spliced.leaves_iff {n : NodeId} : g'.Leaves n ↔ g.Leaves n :=
  exists_congr fun _ => exists_congr fun _ => and_congr_right fun hrole => h.control_iff hvalue hrole

theorem Spliced.controlled_iff {n : NodeId} : g'.Controlled n ↔ g.Controlled n :=
  or_congr (h.entered_iff hvalue) (h.leaves_iff hvalue)

theorem Spliced.beginsBlock_iff (hg : g.Consistent) (hg' : g'.Consistent) {n : NodeId} (hn : n ≠ mid) :
    g'.beginsBlock n = true ↔ g.beginsBlock n = true := by
  rw [hg.beginsBlock_iff, hg'.beginsBlock_iff, h.op n hn]
  refine or_congr Iff.rfl (or_congr Iff.rfl ?_)
  refine exists_congr fun m => exists_congr fun role => and_congr_right fun hname => ?_
  exact h.control_iff hvalue (isControl_of_isOutcome hname)

theorem Spliced.isFixed_iff (hg : g.Consistent) (hg' : g'.Consistent) {n : NodeId} (hn : n ≠ mid) :
    g'.isFixed n = true ↔ g.isFixed n = true := by
  rw [hg.isFixed_iff, hg'.isFixed_iff, h.op n hn, h.controlled_iff hvalue]

/-- The source is read by the spliced node, which hands the value on. -/
theorem Spliced.read_iff {n : NodeId} (hn : n ≠ mid) : g'.Read n ↔ g.Read n := by
  constructor
  · rintro ⟨m, role, hrole, hpos⟩
    rcases h.old _ hpos with hhead | htail | hold
    · obtain rfl : n = e.source := congrArg Edge.source hhead
      exact ⟨e.target, e.role, hvalue, h.edge⟩
    · exact absurd (congrArg Edge.source htail) hn
    · exact ⟨m, role, hrole, hold⟩
  · rintro ⟨m, role, hrole, hpos⟩
    rcases h.kept _ hpos with rfl | hkept
    · refine ⟨mid, .value, rfl, ?_⟩
      rw [← spliceHead_of_isValue (e := ⟨n, m, role⟩) hvalue]
      exact h.head
    · exact ⟨m, role, hrole, hkept⟩

theorem Spliced.noneDangles_iff (hg : g.Consistent) (hg' : g'.Consistent) : g'.NoneDangles ↔ g.NoneDangles := by
  rw [hg.noneDangles_iff, hg'.noneDangles_iff]
  constructor
  · intro hall id hid
    have hne := h.ne_mid hid
    rw [← h.isFixed_iff hvalue hg hg' hne, ← h.read_iff hvalue hne]
    exact hall id ((h.has id).2 (.inl hid))
  · intro hall id hid
    rcases (h.has id).1 hid with hid | rfl
    · have hne := h.ne_mid hid
      rw [h.isFixed_iff hvalue hg hg' hne, h.read_iff hvalue hne]
      exact hall id hid
    · exact .inr ⟨e.target, e.role, hvalue, h.tail⟩

end Value

end Spliced

section Sequenced

variable {g g' : Graph} {before mid after : NodeId} (h : Sequenced g g' before mid after)
include h

theorem Sequenced.value_iff {x : Edge} (hx : x.role.isValue = true) :
    0 < g'.multiplicity x ↔ 0 < g.multiplicity x := by
  have hnot : ∀ {a b : NodeId}, x ≠ ⟨a, b, .control⟩ := by
    rintro a b rfl
    cases hx
  rw [h.edge]
  exact or_iff_left (not_or.2 ⟨hnot, hnot⟩)

section Between

-- Where control led from one node to the other already, only the node between them gets
-- into control flow.
variable {role : Role} (hrole : role.isControl = true) (hnext : 0 < g.multiplicity ⟨before, after, role⟩)
include hrole hnext

theorem Sequenced.entered_iff {n : NodeId} : g'.Entered n ↔ g.Entered n ∨ n = mid := by
  constructor
  · rintro ⟨m, role', hrole', hpos⟩
    simp only [h.edge, Edge.mk.injEq] at hpos
    rcases hpos with hpos | ⟨-, rfl, -⟩ | ⟨-, rfl, -⟩
    · exact .inl ⟨m, role', hrole', hpos⟩
    · exact .inr rfl
    · exact .inl ⟨before, role, hrole, hnext⟩
  · rintro (⟨m, role', hrole', hpos⟩ | rfl)
    · exact ⟨m, role', hrole', (h.edge _).2 (.inl hpos)⟩
    · exact ⟨before, .control, rfl, (h.edge _).2 (.inr (.inl rfl))⟩

theorem Sequenced.leaves_iff {n : NodeId} : g'.Leaves n ↔ g.Leaves n ∨ n = mid := by
  constructor
  · rintro ⟨m, role', hrole', hpos⟩
    simp only [h.edge, Edge.mk.injEq] at hpos
    rcases hpos with hpos | ⟨rfl, -, -⟩ | ⟨rfl, -, -⟩
    · exact .inl ⟨m, role', hrole', hpos⟩
    · exact .inl ⟨after, role, hrole, hnext⟩
    · exact .inr rfl
  · rintro (⟨m, role', hrole', hpos⟩ | rfl)
    · exact ⟨m, role', hrole', (h.edge _).2 (.inl hpos)⟩
    · exact ⟨after, .control, rfl, (h.edge _).2 (.inr (.inr rfl))⟩

theorem Sequenced.controlled_iff {n : NodeId} : g'.Controlled n ↔ g.Controlled n ∨ n = mid := by
  rw [Controlled, h.entered_iff hrole hnext, h.leaves_iff hrole hnext, Controlled]
  constructor
  · rintro ((hn | hn) | (hn | hn))
    · exact .inl (.inl hn)
    · exact .inr hn
    · exact .inl (.inr hn)
    · exact .inr hn
  · rintro ((hn | hn) | hn)
    · exact .inl (.inl hn)
    · exact .inr (.inl hn)
    · exact .inl (.inr hn)

end Between

/-- Plain control begins no block. -/
theorem Sequenced.beginsBlock_iff (hg : g.Consistent) (hg' : g'.Consistent) {n : NodeId} :
    g'.beginsBlock n = true ↔ g.beginsBlock n = true := by
  rw [hg.beginsBlock_iff, hg'.beginsBlock_iff, h.nodes.op]
  refine or_congr Iff.rfl (or_congr Iff.rfl ?_)
  refine exists_congr fun m => exists_congr fun role => and_congr_right fun hname => ?_
  have hnot : ∀ {a b : NodeId}, (⟨m, n, role⟩ : Edge) ≠ ⟨a, b, .control⟩ := by
    rintro a b heq
    obtain rfl : role = .control := congrArg Edge.role heq
    cases hname
  rw [h.edge]
  exact or_iff_left (not_or.2 ⟨hnot, hnot⟩)

theorem Sequenced.noneDangles_iff (hg : g.Consistent) (hg' : g'.Consistent) {role : Role}
    (hrole : role.isControl = true) (hnext : 0 < g.multiplicity ⟨before, after, role⟩) (hread : g.Read mid) :
    g'.NoneDangles ↔ g.NoneDangles := by
  rw [hg.noneDangles_iff, hg'.noneDangles_iff]
  refine forall_congr' fun id => ?_
  have hreads : g'.Read id ↔ g.Read id :=
    exists_congr fun m => exists_congr fun role => and_congr_right fun hvalue => h.value_iff hvalue
  rw [h.nodes.has, hreads, hg.isFixed_iff, hg'.isFixed_iff, h.nodes.op, h.controlled_iff hrole hnext]
  refine imp_congr_right fun _ => ?_
  by_cases hid : id = mid
  · subst hid
    exact iff_of_true (.inr hread) (.inr hread)
  · simp only [hid, or_false]

end Sequenced

theorem rename_rename_of_ne {old new id : NodeId} (h : id ≠ new) : rename new old (rename old new id) = id := by
  unfold rename
  by_cases hold : id = old
  · simp [hold]
  · simp [hold, h]

section Renamed

variable {g g' : Graph} {old new : NodeId} (h : Renamed g g' old new)
include h

theorem Renamed.new_ne_old : new ≠ old := by
  rintro rfl
  have hfresh := h.fresh
  rw [h.live] at hfresh
  cases hfresh

theorem Renamed.ne_new {id : NodeId} (hid : g.has id = true) : id ≠ new := by
  rintro rfl
  rw [h.fresh] at hid
  cases hid

theorem Renamed.rename_ne_old (id : NodeId) : rename old new id ≠ old := by
  unfold rename
  split
  · exact h.new_ne_old
  · assumption

/-- What a node of the renamed graph was called. -/
theorem Renamed.has_back {id : NodeId} (hid : g'.has id = true) :
    id ≠ old ∧ g.has (rename new old id) = true := by
  rcases (h.has id).1 hid with ⟨hid, hold⟩ | rfl
  · refine ⟨hold, ?_⟩
    rw [rename, if_neg]
    · exact hid
    · rintro rfl
      rw [h.fresh] at hid
      cases hid
  · refine ⟨fun heq => ?_, ?_⟩
    · have hfresh := h.fresh
      rw [heq, h.live] at hfresh
      cases hfresh
    · rw [rename, if_pos rfl]
      exact h.live

/-- What a node is called in the renamed graph. -/
theorem Renamed.exists_back {a : NodeId} (ha : g.has a = true) :
    ∃ id, g'.has id = true ∧ id ≠ old ∧ rename new old id = a := by
  by_cases haold : a = old
  · have hnew := (h.has new).2 (.inr rfl)
    exact ⟨new, hnew, (h.has_back hnew).1, by rw [rename, if_pos rfl, haold]⟩
  · refine ⟨a, (h.has a).2 (.inl ⟨ha, haold⟩), haold, ?_⟩
    rw [rename, if_neg]
    rintro rfl
    rw [h.fresh] at ha
    cases ha

theorem Renamed.multiplicity_renameEdge (hg : g.Consistent) {e : Edge} (he : 0 < g.multiplicity e) :
    0 < g'.multiplicity (renameEdge old new e) := by
  obtain ⟨hsource, htarget⟩ := hg.has_of_multiplicity he
  refine (h.edge _).2 ⟨h.rename_ne_old _, h.rename_ne_old _, ?_⟩
  rw [renameEdge_source, renameEdge_target, rename_rename_of_ne (h.ne_new hsource),
    rename_rename_of_ne (h.ne_new htarget)]
  exact he

theorem Renamed.has_rename {id : NodeId} (hid : g.has id = true) : g'.has (rename old new id) = true := by
  unfold rename
  split
  · exact (h.has new).2 (.inr rfl)
  · rename_i hne
    exact (h.has id).2 (.inl ⟨hid, hne⟩)

theorem Renamed.op_back {id : NodeId} (hold : id ≠ old) :
    g'.op id = if id = new then g'.op new else g.op (rename new old id) := by
  by_cases hnew : id = new
  · rw [if_pos hnew, hnew]
  · rw [if_neg hnew, rename, if_neg hnew, h.op id hold hnew]

/-- The nodes with an operation that the new node does not have are those that had
    it, but for the old one. -/
theorem Renamed.op_eq_iff {op : Op} (hop : op ≠ .invalid) (hnew : g'.op new ≠ op) {id : NodeId} :
    g'.op id = op ↔ g.op id = op ∧ id ≠ old := by
  by_cases hold : id = old
  · have hgone : g'.has id = false := by
      rw [← Bool.not_eq_true, hold]
      exact fun hid => (h.has_back hid).1 rfl
    exact iff_of_false (op_ne_of_fresh hgone hop) fun hid => hid.2 hold
  · by_cases hid : id = new
    · subst hid
      exact iff_of_false hnew fun hid => op_ne_of_fresh h.fresh hop hid.1
    · rw [h.op id hold hid]
      exact (and_iff_left hold).symm

/-- Edges of a kind leave a node exactly if they left the node that it was. -/
theorem Renamed.exists_output_iff (hg : g.Consistent) {n : NodeId} (hn : n ≠ old) (kind : Role → Bool) :
    (∃ (m : NodeId) (role : Role), kind role = true ∧ 0 < g'.multiplicity ⟨n, m, role⟩) ↔
      ∃ (m : NodeId) (role : Role), kind role = true ∧ 0 < g.multiplicity ⟨rename new old n, m, role⟩ := by
  constructor
  · rintro ⟨m, role, hrole, hpos⟩
    exact ⟨_, role, hrole, ((h.edge _).1 hpos).2.2⟩
  · rintro ⟨a, role, hrole, hpos⟩
    obtain ⟨m, -, hm, rfl⟩ := h.exists_back (hg.has_of_multiplicity hpos).2
    exact ⟨m, role, hrole, (h.edge _).2 ⟨hn, hm, hpos⟩⟩

theorem Renamed.exists_input_iff (hg : g.Consistent) {n : NodeId} (hn : n ≠ old) (kind : Role → Bool) :
    (∃ (m : NodeId) (role : Role), kind role = true ∧ 0 < g'.multiplicity ⟨m, n, role⟩) ↔
      ∃ (m : NodeId) (role : Role), kind role = true ∧ 0 < g.multiplicity ⟨m, rename new old n, role⟩ := by
  constructor
  · rintro ⟨m, role, hrole, hpos⟩
    exact ⟨_, role, hrole, ((h.edge _).1 hpos).2.2⟩
  · rintro ⟨a, role, hrole, hpos⟩
    obtain ⟨m, -, hm, rfl⟩ := h.exists_back (hg.has_of_multiplicity hpos).1
    exact ⟨m, role, hrole, (h.edge _).2 ⟨hm, hn, hpos⟩⟩

theorem Renamed.leaves_iff (hg : g.Consistent) {n : NodeId} (hn : n ≠ old) :
    g'.Leaves n ↔ g.Leaves (rename new old n) :=
  h.exists_output_iff hg hn Role.isControl

theorem Renamed.read_iff (hg : g.Consistent) {n : NodeId} (hn : n ≠ old) :
    g'.Read n ↔ g.Read (rename new old n) :=
  h.exists_output_iff hg hn Role.isValue

theorem Renamed.controlled_iff (hg : g.Consistent) {n : NodeId} (hn : n ≠ old) :
    g'.Controlled n ↔ g.Controlled (rename new old n) :=
  or_congr (h.exists_input_iff hg hn Role.isControl) (h.leaves_iff hg hn)

theorem Renamed.isFixed_iff (hg : g.Consistent) (hg' : g'.Consistent)
    (hop : (g'.op new).isFixed = (g.op old).isFixed) {n : NodeId} (hn : n ≠ old) :
    g'.isFixed n = true ↔ g.isFixed (rename new old n) = true := by
  rw [hg.isFixed_iff, hg'.isFixed_iff, h.controlled_iff hg hn, h.op_back hn]
  split
  · rename_i hnew
    rw [hop, hnew, rename, if_pos rfl]
  · exact Iff.rfl

theorem Renamed.beginsBlock_iff (hg : g.Consistent) (hg' : g'.Consistent)
    (hold : g.op old ≠ .start ∧ g.op old ≠ .merge) (hnew : g'.op new ≠ .start ∧ g'.op new ≠ .merge) {n : NodeId}
    (hn : n ≠ old) : g'.beginsBlock n = true ↔ g.beginsBlock (rename new old n) = true := by
  rw [hg.beginsBlock_iff, hg'.beginsBlock_iff, h.exists_input_iff hg hn isOutcome, h.op_back hn]
  split
  · rename_i hnnew
    subst hnnew
    rw [rename, if_pos rfl]
    simp only [hold.1, hold.2, hnew.1, hnew.2, false_or]
  · exact Iff.rfl

theorem Renamed.noneDangles_iff (hg : g.Consistent) (hg' : g'.Consistent)
    (hop : (g'.op new).isFixed = (g.op old).isFixed) : g'.NoneDangles ↔ g.NoneDangles := by
  rw [hg.noneDangles_iff, hg'.noneDangles_iff]
  constructor
  · intro hall a ha
    obtain ⟨id, hid, hold, rfl⟩ := h.exists_back ha
    rw [← h.isFixed_iff hg hg' hop hold, ← h.read_iff hg hold]
    exact hall id hid
  · intro hall id hid
    obtain ⟨hold, hback⟩ := h.has_back hid
    rw [h.isFixed_iff hg hg' hop hold, h.read_iff hg hold]
    exact hall _ hback

end Renamed

end Graph

end SeaOfNodes
