/-
  SeaOfNodes.Proofs.Description.Renumbered

  Sequence properties can be described like any others.  Descriptions that differ in
  nothing else build graphs that differ in nothing else: building reads no property, so
  it takes the same steps on both.
-/
import SeaOfNodes.Proofs.Description.Build

namespace SeaOfNodes

/-- Two graphs that differ in sequence properties only. -/
structure Graph.Renumbered (g g' : Graph) : Prop where
  agree : Agree (fun _ => true) g g'
  props : ∀ id key, key ≠ Props.sequence → (g'.props id).get? key = (g.props id).get? key

namespace Graph.Renumbered

theorem refl (g : Graph) : g.Renumbered g := ⟨.refl _ g, fun _ _ _ => rfl⟩

theorem sameProgram {g g' : Graph} (h : g.Renumbered g') : SameProgram g g' := h.agree.sameProgram

theorem setProp (g : Graph) (id : NodeId) (value : Literal) : g.Renumbered (g.setProp id Props.sequence value) := by
  refine ⟨agree_setProp _ g id Props.sequence value, fun other key hkey => ?_⟩
  rw [props_setProp]
  split
  · exact Props.get?_set_ne hkey _ _
  · rfl

theorem addNode {g g' : Graph} (h : g.Renumbered g') {op : Op} {props props' : Props}
    (hprops : ∀ key, key ≠ Props.sequence → props'.get? key = props.get? key) :
    (g'.addNode op props').1 = (g.addNode op props).1 ∧
      (g.addNode op props).2.Renumbered (g'.addNode op props').2 := by
  have hid : (g'.addNode op props').1 = (g.addNode op props).1 := congrArg Int.ofNat h.agree.size
  refine ⟨hid, ⟨?_, fun id => ?_, fun id => ?_, fun id => ?_, fun id => ?_⟩, fun id key hkey => ?_⟩
  · rw [size_arena_addNode, size_arena_addNode, h.agree.size]
  · rw [has_addNode, has_addNode, hid, h.agree.has]
  · rw [op_addNode, op_addNode, hid, h.agree.op]
  · rw [inputsWhere, inputsWhere, inputs_addNode, inputs_addNode, h.agree.inputs_eq]
  · rw [outputsWhere, outputsWhere, outputs_addNode, outputs_addNode, h.agree.outputs_eq]
  · rw [props_addNode, props_addNode, hid]
    split
    · exact hprops key hkey
    · exact h.props id key hkey

theorem linkEdge {g g' : Graph} (h : g.Renumbered g') {e : Edge} (hsource : g.has e.source = true)
    (htarget : g.has e.target = true) : (g.linkEdge e).Renumbered (g'.linkEdge e) := by
  have hsource' : g'.has e.source = true := by rw [h.agree.has]; exact hsource
  have htarget' : g'.has e.target = true := by rw [h.agree.has]; exact htarget
  refine ⟨⟨?_, fun id => ?_, fun id => ?_, fun id => ?_, fun id => ?_⟩, fun id key hkey => ?_⟩
  · rw [size_arena_linkEdge, size_arena_linkEdge, h.agree.size]
  · rw [has_linkEdge, has_linkEdge, h.agree.has]
  · rw [op_linkEdge, op_linkEdge, h.agree.op]
  · rw [inputsWhere, inputsWhere, inputs_linkEdge g e id htarget, inputs_linkEdge g' e id htarget', h.agree.inputs_eq]
  · rw [outputsWhere, outputsWhere, outputs_linkEdge g e id hsource, outputs_linkEdge g' e id hsource',
      h.agree.outputs_eq]
  · rw [props_linkEdge, props_linkEdge]
    exact h.props id key hkey

theorem linkAll {g g' : Graph} (h : g.Renumbered g') {edges : List Edge} (hedges : g.Linkable edges) :
    (g.linkAll edges).Renumbered (g'.linkAll edges) := by
  induction edges generalizing g g' with
  | nil => exact h
  | cons e rest ih =>
      obtain ⟨hsource, htarget⟩ := hedges e List.mem_cons_self
      refine ih (h.linkEdge hsource htarget) fun x hx => ?_
      simpa using hedges x (List.mem_cons_of_mem e hx)

end Graph.Renumbered

namespace Description

/-- Two descriptions of a node that differ in sequence properties only.  Those of the second are
    literals. -/
structure NodeSpec.Renumbered (n n' : NodeSpec) : Prop where
  op : n'.op = n.op
  name : n'.name = n.name
  inputs : n'.inputs = n.inputs
  props : (n'.props.filter fun p => p.1 ≠ Props.sequence) = n.props.filter fun p => p.1 ≠ Props.sequence
  literals : ∀ p ∈ n'.props, p.1 = Props.sequence → ∃ literal, p.2.toLiteral = .ok literal

theorem NodeSpec.Renumbered.filter_eq {n n' : NodeSpec} (h : n.Renumbered n') {key : String} (hkey : key ≠ Props.sequence) :
    (n'.props.filter fun p => p.1 = key) = n.props.filter fun p => p.1 = key := by
  have hfilter : ∀ props : List (String × Value), (props.filter fun p => p.1 = key) =
      (props.filter fun p => p.1 ≠ Props.sequence).filter fun p => p.1 = key := by
    intro props
    rw [List.filter_filter]
    refine List.filter_congr fun p _ => ?_
    by_cases hp : p.1 = key <;> simp [hp, hkey]
  rw [hfilter n'.props, h.props, ← hfilter]

theorem NodeSpec.Renumbered.convertNode {n n' : NodeSpec} (h : n.Renumbered n') {op : Op} {props : Props}
    (hconvert : Description.convertNode n = .ok (op, props)) :
    ∃ props', Description.convertNode n' = .ok (op, props') ∧
      ∀ key, key ≠ Props.sequence → props'.get? key = props.get? key := by
  obtain ⟨hop, hprops⟩ := convertNode_eq_ok.1 hconvert
  have hliterals : ∀ p ∈ n'.props, ∃ literal, p.2.toLiteral = .ok literal := by
    intro p hp
    by_cases hkey : p.1 = Props.sequence
    · exact h.literals p hp hkey
    · -- Any other property was converted in the first run.
      have hmem : p ∈ n'.props.filter fun p => p.1 ≠ Props.sequence := by simp [hp, hkey]
      rw [h.props] at hmem
      exact convertProps_succeeds.1 ⟨props, hprops⟩ p (List.mem_filter.1 hmem).1
  obtain ⟨props', hprops'⟩ := convertProps_succeeds.2 hliterals
  refine ⟨props', convertNode_eq_ok.2 ⟨by rw [h.op, hop], hprops'⟩, fun key hkey => ?_⟩
  rw [get?_convertProps hprops', get?_convertProps hprops, h.filter_eq hkey]

/-! ## Two runs of building -/

theorem createNodes_renumbered {names names' : Names} {g created g' : Graph} {nodes nodes' : List NodeSpec}
    (h : createNodes names g nodes = .ok (names', created)) (hg : g.Renumbered g')
    (hnodes : List.Forall₂ NodeSpec.Renumbered nodes nodes') :
    ∃ created', createNodes names g' nodes' = .ok (names', created') ∧ created.Renumbered created' := by
  induction hnodes generalizing names g g' with
  | nil =>
      cases h
      exact ⟨g', rfl, hg⟩
  | @cons n n' rest rest' hn _ ih =>
      obtain ⟨hfresh, op, props, hconvert, hrest⟩ := createNodes_cons_eq_ok.1 h
      -- The new node gets the same handle in both runs, so the names stay the same.
      obtain ⟨props', hconvert', hprops⟩ := hn.convertNode hconvert
      obtain ⟨hid, hnext⟩ := hg.addNode hprops
      obtain ⟨created', hcreated', hagree⟩ := ih hrest hnext
      refine ⟨created', createNodes_cons_eq_ok.2 ?_, hagree⟩
      rw [hn.name]
      exact ⟨hfresh, op, props', hconvert', by rw [hid]; exact hcreated'⟩

theorem linkNodes_renumbered {names : Names} {g linked g' : Graph} {nodes nodes' : List NodeSpec}
    (h : linkNodes names g nodes = .ok linked) (hg : g.Renumbered g') (hcreated : Created nodes names g)
    (hnodes : List.Forall₂ NodeSpec.Renumbered nodes nodes') :
    ∃ linked', linkNodes names g' nodes' = .ok linked' ∧ linked.Renumbered linked' := by
  obtain ⟨parts, hparts, rfl⟩ := linkNodes_eq_ok_iff.1 h
  refine ⟨_, linkNodes_eq_ok_iff.2 ⟨parts, ?_, rfl⟩, hg.linkAll (hcreated.linkable hparts)⟩
  -- The same names, inputs and operations make the same edges.
  refine (forall₂_comp hnodes.flip hparts).imp fun n' part ⟨n, hn, hlinks⟩ => ?_
  simp only [Links, inputEdge_congr hg.agree.op]
  rw [hn.name, hn.inputs]
  exact hlinks

/-- Descriptions that differ in sequence properties only build graphs that differ in nothing else. -/
theorem build_renumbered {spec spec' : GraphSpec} {g : Graph} (h : build spec = .ok g)
    (hnodes : List.Forall₂ NodeSpec.Renumbered spec.nodes spec'.nodes) :
    ∃ g', build spec' = .ok g' ∧ g.Renumbered g' := by
  obtain ⟨names, created, hcreated, hlinked, hstart⟩ := buildNodes_eq_ok_iff.1 (mapError_eq_ok.1 h)
  obtain ⟨created', hcreated', hagree⟩ := createNodes_renumbered hcreated (.refl _) hnodes
  obtain ⟨g', hlinked', hagree'⟩ := linkNodes_renumbered hlinked hagree (created_of_createNodes hcreated) hnodes
  refine ⟨g', mapError_eq_ok.2 (buildNodes_eq_ok_iff.2 ⟨names, created', hcreated', hlinked', ?_⟩), hagree'⟩
  rw [hagree'.agree.find]
  exact hstart

/-! ## One number for all nodes -/

/-- A description with another sequence property. -/
def NodeSpec.stamp (value : Value) (n : NodeSpec) : NodeSpec :=
  { n with props := (n.props.filter fun p => p.1 ≠ Props.sequence) ++ [(Props.sequence, value)] }

theorem NodeSpec.renumbered_stamp {value : Value} {literal : Literal} (hvalue : value.toLiteral = .ok literal)
    (n : NodeSpec) : n.Renumbered (n.stamp value) where
  op := rfl
  name := rfl
  inputs := rfl
  props := by simp [stamp]
  literals p hp hkey := by
    simp only [stamp, List.mem_append, List.mem_filter, List.mem_singleton] at hp
    rcases hp with ⟨-, hother⟩ | rfl
    · simp [hkey] at hother
    · exact ⟨literal, hvalue⟩

/-- What is built can be built with any sequence property on all nodes. -/
theorem exists_build_stamped {spec : GraphSpec} {g : Graph} (h : build spec = .ok g) {value : Value}
    {literal : Literal} (hvalue : value.toLiteral = .ok literal) :
    ∃ spec' g', build spec' = .ok g' ∧ g.Renumbered g' ∧
      ∀ id, g.has id = true → (g'.props id).get? Props.sequence = some literal := by
  let stamped : GraphSpec := { spec with nodes := spec.nodes.map (NodeSpec.stamp value) }
  have hnodes : List.Forall₂ NodeSpec.Renumbered spec.nodes stamped.nodes := by
    rw [List.forall₂_map_right_iff, List.forall₂_same]
    exact fun n _ => n.renumbered_stamp hvalue
  obtain ⟨g', hbuild', hagree⟩ := build_renumbered h hnodes
  refine ⟨stamped, g', hbuild', hagree, fun id hid => ?_⟩
  rw [← hagree.agree.has] at hid
  obtain ⟨k, n, hn, rfl, hconvert⟩ := exists_spec_of_build hbuild' hid
  obtain ⟨m, -, rfl⟩ := List.mem_map.1 (List.mem_of_getElem? hn)
  rw [get?_convertProps (convertNode_eq_ok.1 hconvert).2]
  have hlast : ((m.stamp value).props.filter fun p => p.1 = Props.sequence) = [(Props.sequence, value)] := by
    rw [NodeSpec.stamp, List.filter_append, List.filter_filter]
    simp
  rw [hlast, List.getLast?_singleton, Option.bind_some, hvalue]
  rfl

end Description

end SeaOfNodes
