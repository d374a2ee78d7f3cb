/-
  SeaOfNodes.Proofs.Description.Build

  A description that is accepted builds a consistent graph without schedule edges, whose
  nodes are the described ones.  The graph is that of the nodes alone, with the edges of all
  inputs added; whatever is asked about it is read off the nodes or off those edges.
-/
import SeaOfNodes.Proofs.Description.Linking

namespace SeaOfNodes.Description

/-- A graph is built by creating the nodes and then linking them, if one node is the start. -/
theorem buildNodes_eq_ok_iff {nodes : List NodeSpec} {g : Graph} :
    buildNodes nodes = .ok g ↔ ∃ names created, createNodes [] .empty nodes = .ok (names, created) ∧
      linkNodes names created nodes = .ok g ∧ (g.find .start).length = 1 := by
  rw [buildNodes, bind_eq_ok]
  constructor
  · rintro ⟨⟨names, created⟩, hcreated, hrest⟩
    obtain ⟨linked, hlinked, hrest⟩ := bind_eq_ok.1 hrest
    dsimp only at hrest
    split at hrest
    · rename_i hstart
      obtain rfl := pure_eq_ok.1 hrest
      exact ⟨names, created, hcreated, hlinked, hstart⟩
    · cases hrest
  · rintro ⟨names, created, hcreated, hlinked, hstart⟩
    refine ⟨(names, created), hcreated, bind_eq_ok.2 ⟨g, hlinked, ?_⟩⟩
    dsimp only
    rw [if_pos hstart]
    rfl

/-- What is built is the created nodes with the edges of their inputs. -/
theorem exists_links_of_buildNodes {nodes : List NodeSpec} {g : Graph} (h : buildNodes nodes = .ok g) :
    ∃ names created parts, Created nodes names created ∧ List.Forall₂ (Links names created) nodes parts ∧
      created.linkAll parts.flatten = g ∧ (g.find .start).length = 1 := by
  obtain ⟨names, created, hcreated, hlinked, hstart⟩ := buildNodes_eq_ok_iff.1 h
  obtain ⟨parts, hparts, hg⟩ := linkNodes_eq_ok_iff.1 hlinked
  exact ⟨names, created, parts, created_of_createNodes hcreated, hparts, hg, hstart⟩

section Build

variable {spec : GraphSpec} {g : Graph} (h : build spec = .ok g)
include h

theorem exists_links_of_build :
    ∃ names created parts, Created spec.nodes names created ∧ List.Forall₂ (Links names created) spec.nodes parts ∧
      created.linkAll parts.flatten = g ∧ (g.find .start).length = 1 :=
  exists_links_of_buildNodes (mapError_eq_ok.1 h)

/-- A graph that was built is consistent. -/
theorem consistent_of_build : g.Consistent := by
  obtain ⟨names, created, parts, hcreated, hparts, rfl, -⟩ := exists_links_of_build h
  exact hcreated.consistent.linkAll (hcreated.linkable hparts)

/-- A graph that was built has one start and no schedule edges, and its values are read off
    nodes that have one. -/
theorem valued_of_build : (g.Unscheduled ∧ g.Valued) ∧ (g.find .start).length = 1 := by
  obtain ⟨names, created, parts, hcreated, hparts, rfl, hstart⟩ := exists_links_of_build h
  -- The nodes have no edges before they are linked, so every edge is that of an input.
  have hinput : ∀ e, 0 < (created.linkAll parts.flatten).multiplicity e →
      ∃ n ∈ spec.nodes, ∃ input ∈ n.inputs,
        inputEdge names created ((names.lookup n.name).getD (-1)) input = .ok e := by
    intro e he
    rw [Graph.multiplicity_pos, Graph.outputs_linkAll (hcreated.linkable hparts), hcreated.outputs,
      List.nil_append] at he
    exact exists_input_of_mem_links hparts (List.mem_of_mem_filter he)
  refine ⟨⟨fun e he => ?_, fun e he hreads => ?_⟩, hstart⟩
  · obtain ⟨n, -, input, -, hedge⟩ := hinput e he
    exact isControl_or_isValue_of_parse (inputEdge_eq_ok_iff.1 hedge).2.2.1
  · obtain ⟨n, -, input, -, hedge⟩ := hinput e he
    rw [Graph.producesValue, Graph.op_linkAll]
    exact (inputEdge_eq_ok_iff.1 hedge).2.2.2 hreads

theorem unscheduled_of_build : g.Unscheduled ∧ (g.find .start).length = 1 :=
  ⟨(valued_of_build h).1.1, (valued_of_build h).2⟩

/-! ## Handles -/

/-- The handle of a node is the place of its description. -/
theorem convertNode_of_build :
    g.arena.size = spec.nodes.length ∧
      ∀ k n, spec.nodes[k]? = some n → convertNode n = .ok (g.op (Int.ofNat k), g.props (Int.ofNat k)) := by
  obtain ⟨names, created, parts, hcreated, -, rfl, -⟩ := exists_links_of_build h
  have hnodes : created.SameNodes (created.linkAll parts.flatten) := .foldl Graph.sameNodes_linkEdge created _
  refine ⟨hnodes.size.trans hcreated.size, fun k n hn => ?_⟩
  rw [hnodes.op, hnodes.props]
  exact hcreated.convert k n hn

/-- Every node has a description. -/
theorem exists_spec_of_build {id : NodeId} (hid : g.has id = true) :
    ∃ k n, spec.nodes[k]? = some n ∧ id = Int.ofNat k ∧ convertNode n = .ok (g.op id, g.props id) := by
  obtain ⟨hsize, hnodes⟩ := convertNode_of_build h
  obtain ⟨k, hk, rfl⟩ := Graph.exists_slot_of_has hid
  rw [hsize] at hk
  exact ⟨k, _, List.getElem?_eq_getElem hk, rfl, hnodes k _ (List.getElem?_eq_getElem hk)⟩

/-- A property that no node is described with no node has. -/
theorem has_props_of_build {key : String}
    (hkey : ∀ n ∈ spec.nodes, ∀ p ∈ n.props, p.1 ≠ key) (id : NodeId) : (g.props id).has key = false := by
  cases hid : g.has id with
  | false =>
      rw [Graph.props_eq_empty hid]
      rfl
  | true =>
      obtain ⟨k, n, hn, rfl, hconvert⟩ := exists_spec_of_build h hid
      have hnone : (n.props.filter fun p => p.1 = key) = [] := by
        simpa using hkey n (List.mem_of_getElem? hn)
      rw [Props.has, get?_convertProps (convertNode_eq_ok.1 hconvert).2, hnone]
      rfl

/-- The start is the node that is described as one. -/
theorem exists_start_of_build {start : NodeId} (hop : g.op start = .start) :
    ∃ k n, spec.nodes[k]? = some n ∧ n.op = Op.start.name ∧ start = Int.ofNat k := by
  have hlive : g.has start = true := Graph.has_of_op_ne_invalid (by rw [hop]; decide)
  obtain ⟨k, n, hn, rfl, hconvert⟩ := exists_spec_of_build h hlive
  have hname := name_of_ofName (convertNode_eq_ok.1 hconvert).1
  rw [hop] at hname
  exact ⟨k, n, hn, hname.symm, rfl⟩

end Build

end SeaOfNodes.Description
