/-
  SeaOfNodes.Proofs.Description.Acceptance

  Which descriptions are accepted, and what they build.  Building reads a description twice,
  once for its nodes and once for their inputs, and stops at the first fault it meets.  What
  it accepts does not depend on that order: a description is valid or not as a whole, and an
  input may name a node that is declared later, or its own.  The order of the declarations is
  that of the nodes and of their edges.
-/
import SeaOfNodes.Proofs.Description.Build

namespace SeaOfNodes.Description

/-! ## Valid descriptions -/

/-- An input names a declared node under a proper role, and one that has a value if it reads one. -/
def Admissible (nodes : List NodeSpec) (input : Input) : Prop :=
  ∃ source ∈ nodes, source.name = input.source ∧ ∃ role, Role.parse input.role = .ok role ∧
    (role.isValue = true → ∃ op ∈ Op.named, op.name = source.op ∧ op.producesValue = true)

/-- What is asked of a description. -/
structure Valid (nodes : List NodeSpec) : Prop where
  names : (nodes.map NodeSpec.name).Nodup
  ops : ∀ n ∈ nodes, ∃ op ∈ Op.named, op.name = n.op
  props : ∀ n ∈ nodes, ∀ p ∈ n.props, ∃ literal, p.2.toLiteral = .ok literal
  inputs : ∀ n ∈ nodes, ∀ input ∈ n.inputs, Admissible nodes input
  start : (nodes.filter fun n => n.op = Op.start.name).length = 1

/-- An edge is the one that an input of the node `target` declares: its source is the node of that
    name. -/
structure Declares (nodes : List NodeSpec) (target : NodeId) (input : Input) (e : Edge) : Prop where
  source : ∃ j n, nodes[j]? = some n ∧ n.name = input.source ∧ e.source = Int.ofNat j
  target : e.target = target
  role : Role.parse input.role = .ok e.role

/-- A graph has the declared nodes and edges, each in the order of the declarations. -/
structure Built (nodes : List NodeSpec) (g : Graph) : Prop where
  has : ∀ id, g.has id = true ↔ ∃ k, k < nodes.length ∧ id = Int.ofNat k
  op : ∀ (k : Nat) n, nodes[k]? = some n → Op.ofName n.op = .ok (g.op (Int.ofNat k))
  /-- A property is the literal of the value that it is given, last if more than once. -/
  props : ∀ (k : Nat) n, nodes[k]? = some n → ∀ key, (g.props (Int.ofNat k)).get? key =
    ((n.props.filter fun p => p.1 = key).getLast?).bind fun p => p.2.toLiteral.toOption
  inputs : ∀ (k : Nat) n, nodes[k]? = some n →
    List.Forall₂ (Declares nodes (Int.ofNat k)) n.inputs (g.inputs (Int.ofNat k))
  outputs : ∀ id, g.outputs id =
    ((List.range nodes.length).flatMap fun k => g.inputs (Int.ofNat k)).filter fun e => e.source = id

/-! ## Inputs -/

namespace Created

variable {nodes : List NodeSpec} {names : Names} {g : Graph} (h : Created nodes names g)
include h

theorem producesValue_iff {k : Nat} {n : NodeSpec} (hn : nodes[k]? = some n) :
    g.producesValue (Int.ofNat k) = true ↔ ∃ op ∈ Op.named, op.name = n.op ∧ op.producesValue = true := by
  constructor
  · intro hvalue
    exact ⟨_, (h.op_mem hn).1, (h.op_mem hn).2, hvalue⟩
  · rintro ⟨op, hop, hname, hvalue⟩
    have hofName := (convertNode_eq_ok.1 (h.convert k n hn)).1
    rw [ofName_eq_ok_iff.2 ⟨hop, hname⟩] at hofName
    rw [Graph.producesValue, ← Except.ok.inj hofName]
    exact hvalue

/-- An input is accepted if and only if it is admissible. -/
theorem inputEdge_succeeds_iff {target : NodeId} {input : Input} :
    (∃ e, inputEdge names g target input = .ok e) ↔ Admissible nodes input := by
  constructor
  · rintro ⟨e, he⟩
    obtain ⟨hlookup, -, hrole, hvalue⟩ := inputEdge_eq_ok_iff.1 he
    obtain ⟨j, source, hsource, hname, hid⟩ := (h.lookup _ _).1 hlookup
    refine ⟨source, List.mem_of_getElem? hsource, hname, e.role, hrole, fun hreads => ?_⟩
    exact (h.producesValue_iff hsource).1 (hid ▸ hvalue hreads)
  · rintro ⟨source, hsource, hname, role, hrole, hvalue⟩
    obtain ⟨j, hj⟩ := List.mem_iff_getElem?.1 hsource
    refine ⟨⟨Int.ofNat j, target, role⟩, inputEdge_eq_ok_iff.2 ⟨?_, rfl, hrole, fun hreads => ?_⟩⟩
    · exact (h.lookup _ _).2 ⟨j, source, hj, hname, rfl⟩
    · exact (h.producesValue_iff hj).2 (hvalue hreads)

theorem declares {target : NodeId} {input : Input} {e : Edge} (he : inputEdge names g target input = .ok e) :
    Declares nodes target input e := by
  obtain ⟨hlookup, htarget, hrole, -⟩ := inputEdge_eq_ok_iff.1 he
  exact ⟨(h.lookup _ _).1 hlookup, htarget, hrole⟩

/-- As many nodes are starts as are described as one. -/
theorem length_find_start : (g.find .start).length = (nodes.filter fun n => n.op = Op.start.name).length := by
  have hids : g.ids = (List.range nodes.length).map Int.ofNat := by
    rw [Graph.ids, h.size]
    refine List.filter_eq_self.2 fun id hid => ?_
    obtain ⟨k, hk, rfl⟩ := List.mem_map.1 hid
    exact h.has_iff.2 ⟨k, List.mem_range.1 hk, rfl⟩
  have hstarts : List.Forall₂ (fun id n => g.op id = .start ↔ n.op = Op.start.name) g.ids nodes := by
    rw [hids, List.forall₂_map_left_iff, List.forall₂_iff_get]
    refine ⟨List.length_range, fun k _ hk => ?_⟩
    have hname := (h.op_mem (List.getElem?_eq_getElem hk)).2
    have hstart : ∀ op ∈ Op.named, op.name = Op.start.name → op = .start := by decide
    rw [List.get_eq_getElem, List.getElem_range, List.get_eq_getElem, ← hname]
    constructor
    · intro hop
      rw [hop]
    · exact hstart _ (h.op_mem (List.getElem?_eq_getElem hk)).1
  exact (List.rel_filter (fun id n hboth => by simpa using hboth) hstarts).length_eq

section Linked

variable {parts : List (List Edge)} (hparts : List.Forall₂ (Links names g) nodes parts)
include hparts

/-- The edges that the inputs of a node declare make a list of their own. -/
theorem declares_part {k : Nat} {n : NodeSpec} (hn : nodes[k]? = some n) :
    ∃ part, parts[k]? = some part ∧ List.Forall₂ (Declares nodes (Int.ofNat k)) n.inputs part := by
  obtain ⟨part, hpart, hlinks⟩ := forall₂_getElem? hparts hn
  rw [Links, h.getD_lookup hn] at hlinks
  exact ⟨part, hpart, hlinks.imp fun input e he => h.declares he⟩

/-- These are the inputs of the node when all edges have been added. -/
theorem inputs_linked (k : Nat) : (g.linkAll parts.flatten).inputs (Int.ofNat k) = (parts[k]?).getD [] := by
  have htarget : ∀ k part, parts[k]? = some part → ∀ e ∈ part, e.target = Int.ofNat (0 + k) := by
    intro k part hk e he
    obtain ⟨n, hn, -⟩ := forall₂_getElem? hparts.flip hk
    obtain ⟨part', hk', hdeclares⟩ := h.declares_part hparts hn
    obtain rfl : part = part' := Option.some.inj (hk.symm.trans hk')
    obtain ⟨input, -, hinput⟩ := forall₂_mem_right hdeclares he
    rw [hinput.target, Nat.zero_add]
  have hfilter := filter_flatten_target 0 htarget k
  rw [Nat.zero_add] at hfilter
  rw [Graph.inputs_linkAll (h.linkable hparts), h.inputs, List.nil_append, hfilter]

/-- What linking the inputs makes of the nodes. -/
theorem built : Built nodes (g.linkAll parts.flatten) := by
  refine ⟨fun id => ?_, fun k n hn => ?_, fun k n hn key => ?_, fun k n hn => ?_, fun id => ?_⟩
  · rw [Graph.has_linkAll, h.has_iff]
  · rw [Graph.op_linkAll]
    exact (convertNode_eq_ok.1 (h.convert k n hn)).1
  · rw [Graph.props_linkAll]
    exact get?_convertProps (convertNode_eq_ok.1 (h.convert k n hn)).2 key
  · obtain ⟨part, hk, hdeclares⟩ := h.declares_part hparts hn
    rw [h.inputs_linked hparts, hk]
    exact hdeclares
  · -- The inputs of all nodes, one node after the other, are the edges in the order they were added in.
    have hall : ((List.range nodes.length).map fun k => (parts[k]?).getD []) = parts := by
      refine List.ext_getElem (by simp [hparts.length_eq]) fun k hk _ => ?_
      simp [hparts.length_eq ▸ (by simpa using hk : k < nodes.length)]
    rw [Graph.outputs_linkAll (h.linkable hparts), h.outputs, List.nil_append]
    simp only [h.inputs_linked hparts]
    rw [List.flatMap_def, hall]

end Linked

end Created

/-! ## Acceptance -/

/-- Linking leaves the starts as they are. -/
theorem length_find_start_of_link {nodes : List NodeSpec} {names : Names} {created g : Graph}
    (h : Created nodes names created) (hlinked : linkNodes names created nodes = .ok g) :
    (g.find .start).length = (nodes.filter fun n => n.op = Op.start.name).length := by
  obtain ⟨parts, -, rfl⟩ := linkNodes_eq_ok_iff.1 hlinked
  rw [← h.length_find_start]
  refine Graph.length_find_eq (by decide) fun id => ?_
  rw [Graph.op_linkAll]

/-- Each check of the two readings is one condition on the description as a whole. -/
theorem buildNodes_succeeds_iff {nodes : List NodeSpec} : (∃ g, buildNodes nodes = .ok g) ↔ Valid nodes := by
  simp only [buildNodes_eq_ok_iff]
  constructor
  · rintro ⟨g, names, created, hcreated, hlinked, hstart⟩
    have h := created_of_createNodes hcreated
    have hnodes := fun n hn => convertNode_succeeds_iff.1 ((createNodes_succeeds_iff.1 ⟨_, hcreated⟩).2.2 n hn)
    refine ⟨h.nodup, fun n hn => (hnodes n hn).1, fun n hn => (hnodes n hn).2, fun n hn input hinput => ?_, ?_⟩
    · exact h.inputEdge_succeeds_iff.1 (linkNodes_succeeds_iff.1 ⟨g, hlinked⟩ n hn input hinput)
    · rw [← length_find_start_of_link h hlinked, hstart]
  · intro hvalid
    obtain ⟨⟨names, created⟩, hcreated⟩ : ∃ r, createNodes [] .empty nodes = .ok r :=
      createNodes_succeeds_iff.2 ⟨fun _ _ => rfl, hvalid.names,
        fun n hn => convertNode_succeeds_iff.2 ⟨hvalid.ops n hn, hvalid.props n hn⟩⟩
    have h := created_of_createNodes hcreated
    obtain ⟨g, hlinked⟩ : ∃ g, linkNodes names created nodes = .ok g :=
      linkNodes_succeeds_iff.2 fun n hn input hinput => h.inputEdge_succeeds_iff.2 (hvalid.inputs n hn input hinput)
    refine ⟨g, names, created, hcreated, hlinked, ?_⟩
    rw [length_find_start_of_link h hlinked, hvalid.start]

theorem built_of_buildNodes {nodes : List NodeSpec} {g : Graph} (hbuild : buildNodes nodes = .ok g) :
    Built nodes g := by
  obtain ⟨names, created, parts, hcreated, hparts, rfl, -⟩ := exists_links_of_buildNodes hbuild
  exact hcreated.built hparts

/-- A description builds a graph if and only if it is valid, and then the one that it describes.  Any
    other is refused as an invalid graph, by its name. -/
theorem build_accepts (spec : GraphSpec) :
    ((∃ g, build spec = .ok g) ↔ Valid spec.nodes) ∧ (∀ g, build spec = .ok g → Built spec.nodes g) ∧
      (¬ Valid spec.nodes → ∃ cause, build spec = .error cause ∧ cause.graph = spec.name ∧
        cause.message = "invalid graph " ++ Text.quote spec.name ++ ": " ++ cause.fault.message) := by
  have hbuild : ∀ g, build spec = .ok g ↔ buildNodes spec.nodes = .ok g := fun g => mapError_eq_ok
  simp only [hbuild]
  refine ⟨buildNodes_succeeds_iff, fun g => built_of_buildNodes, fun hinvalid => ?_⟩
  cases hnodes : buildNodes spec.nodes with
  | ok g => exact absurd (buildNodes_succeeds_iff.1 ⟨g, hnodes⟩) hinvalid
  | error fault => exact ⟨⟨spec.name, fault⟩, mapError_eq_error.2 ⟨fault, hnodes, rfl⟩, rfl, rfl⟩

/-- A sum that reads an argument before and after itself; the argument is declared later. -/
def knot : GraphSpec :=
  ⟨"knot", "", [⟨"start", "entry", [], []⟩,
    ⟨"add", "sum", [], [⟨"value(0)", "x"⟩, ⟨"value(1)", "sum"⟩, ⟨"value(0)", "x"⟩]⟩,
    ⟨"arg", "x", [("kind", .string "fixnum")], []⟩]⟩

/-- What it builds. -/
def knotGraph : Graph :=
  (Graph.assemble [.start, .add, .arg] [⟨2, 1, .valueN 0⟩, ⟨1, 1, .valueN 1⟩, ⟨2, 1, .valueN 0⟩]).setProp 2 Props.kind
    (.str "fixnum")

theorem build_knot_accepts :
    Valid knot.nodes ∧ build knot = .ok knotGraph ∧ Built knot.nodes knotGraph ∧
      knotGraph.inputs 1 = [⟨2, 1, .valueN 0⟩, ⟨1, 1, .valueN 1⟩, ⟨2, 1, .valueN 0⟩] ∧
      knotGraph.outputs 2 = [⟨2, 1, .valueN 0⟩, ⟨2, 1, .valueN 0⟩] := by
  have hbuild : build knot = .ok knotGraph := by decide +kernel
  obtain ⟨hvalid, hbuilt, -⟩ := build_accepts knot
  exact ⟨hvalid.1 ⟨knotGraph, hbuild⟩, hbuild, hbuilt knotGraph hbuild, by decide, by decide⟩

end SeaOfNodes.Description
