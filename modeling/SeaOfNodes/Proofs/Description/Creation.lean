/-
  SeaOfNodes.Proofs.Description.Creation

  The nodes that descriptions declare.  A node can be created if its operation is known, its
  properties are literals and its name is new; so all can if that holds of each and their
  names are distinct.  The handle of a node is the place of its description.
-/
import SeaOfNodes.Description.Build
import SeaOfNodes.Proofs.Except
import SeaOfNodes.Proofs.Graph.Multiplicity

namespace SeaOfNodes.Description

/-! ## Operations and properties -/

theorem name_of_ofName {tag : String} {op : Op} (h : Op.ofName tag = .ok op) : op.name = tag := by
  unfold Op.ofName at h
  split at h
  · rename_i known hknown
    cases h
    simpa using List.find?_some hknown
  · cases h

theorem ofName_eq_ok_iff {tag : String} {op : Op} : Op.ofName tag = .ok op ↔ op ∈ Op.named ∧ op.name = tag := by
  constructor
  · intro h
    refine ⟨?_, name_of_ofName h⟩
    rw [Op.ofName] at h
    split at h
    · rename_i known hknown
      rw [← Except.ok.inj h]
      exact List.mem_of_find?_eq_some hknown
    · cases h
  · rintro ⟨hop, rfl⟩
    have hall : ∀ op ∈ Op.named, (Op.ofName op.name).toOption = some op := by decide
    have hfound := hall op hop
    cases hname : Op.ofName op.name with
    | ok known =>
        rw [hname] at hfound
        rw [Option.some.inj hfound]
    | error cause =>
        rw [hname] at hfound
        cases hfound

/-- The last entry with a name counts. -/
theorem get?_ofList (entries : List (String × Literal)) (key : String) :
    (Props.ofList entries).get? key = ((entries.filter fun entry => entry.1 = key).getLast?).map Prod.snd := by
  induction entries using List.reverseRecOn with
  | nil => rfl
  | append_singleton front entry ih =>
      have hset : Props.ofList (front ++ [entry]) = (Props.ofList front).set entry.1 entry.2 := by
        rw [Props.ofList, List.foldl_append]
        rfl
      rw [hset, List.filter_append]
      by_cases hkey : entry.1 = key
      · subst hkey
        simp
      · rw [Props.get?_set_ne (Ne.symm hkey), ih]
        simp [hkey]

/-- Sorting leaves the entries with one name in their order. -/
theorem filter_sortProps (props : List (String × Value)) (key : String) :
    (sortProps props).filter (fun p => p.1 = key) = props.filter fun p => p.1 = key := by
  have hkey : (props.filter fun p => p.1 = key).Pairwise fun a b => decide (a.1 ≤ b.1) = true := by
    refine List.pairwise_of_forall_mem_list fun a ha b hb => ?_
    simp only [List.mem_filter, decide_eq_true_eq] at ha hb
    simp [ha.2, hb.2]
  -- Sorting is stable, so entries that are in order already stay in their order.
  have hsub : (props.filter fun p => p.1 = key).Sublist (sortProps props) := by
    refine List.sublist_mergeSort (fun a b c hab hbc => ?_) (fun a b => ?_) hkey List.filter_sublist
    · simp only [decide_eq_true_eq] at *
      exact String.le_trans hab hbc
    · simpa using String.le_total a.1 b.1
  have hfiltered := hsub.filter fun p => p.1 = key
  simp only [List.filter_filter, Bool.and_self] at hfiltered
  have hperm := (List.mergeSort_perm props fun a b => a.1 ≤ b.1).filter fun p => p.1 = key
  exact (hfiltered.eq_of_length hperm.length_eq.symm).symm

/-- Conversion goes entry by entry. -/
theorem convertProps_eq_ok {props : List (String × Value)} {converted : Props} :
    convertProps props = .ok converted ↔ ∃ entries, Props.ofList entries = converted ∧
      List.Forall₂ (fun p entry => p.1 = entry.1 ∧ p.2.toLiteral = .ok entry.2) (sortProps props) entries := by
  rw [convertProps, bind_eq_ok]
  refine exists_congr fun entries => ?_
  rw [pure_eq_ok, mapM_eq_ok, and_comm]
  refine and_congr_right fun _ => ⟨fun h => h.imp fun p entry hentry => ?_, fun h => h.imp fun p entry hentry => ?_⟩
  · dsimp only at hentry
    split at hentry
    · rename_i literal hliteral
      cases hentry
      exact ⟨rfl, hliteral⟩
    · cases hentry
  · obtain ⟨hkey, hliteral⟩ := hentry
    dsimp only
    rw [hliteral, hkey]

/-- A name has the literal of its last value. -/
theorem get?_convertProps {props : List (String × Value)} {converted : Props} (h : convertProps props = .ok converted)
    (key : String) : converted.get? key =
      ((props.filter fun p => p.1 = key).getLast?).bind fun p => p.2.toLiteral.toOption := by
  obtain ⟨entries, rfl, hentries⟩ := convertProps_eq_ok.1 h
  have hfilter : List.Forall₂ (fun (p : String × Value) (entry : String × Literal) =>
      p.1 = entry.1 ∧ p.2.toLiteral = .ok entry.2)
      ((sortProps props).filter fun p => p.1 = key) (entries.filter fun entry => entry.1 = key) := by
    refine List.rel_filter (fun p entry hentry => ?_) hentries
    simp [hentry.1]
  rw [filter_sortProps] at hfilter
  have hlast := forall₂_getLast? hfilter
  rw [get?_ofList]
  generalize (props.filter fun p => p.1 = key).getLast? = value? at hlast ⊢
  generalize (entries.filter fun entry => entry.1 = key).getLast? = entry? at hlast ⊢
  cases hlast with
  | none => rfl
  | some hboth =>
      rw [Option.bind_some, hboth.2]
      rfl

/-- Properties convert if and only if all their values do. -/
theorem convertProps_succeeds {props : List (String × Value)} :
    (∃ converted, convertProps props = .ok converted) ↔ ∀ p ∈ props, ∃ literal, p.2.toLiteral = .ok literal := by
  constructor
  · rintro ⟨converted, h⟩ p hp
    obtain ⟨entries, -, hentries⟩ := convertProps_eq_ok.1 h
    obtain ⟨entry, -, -, hliteral⟩ := forall₂_mem_left hentries (List.mem_mergeSort.2 hp)
    exact ⟨entry.2, hliteral⟩
  · intro h
    cases hconvert : convertProps props with
    | ok converted => exact ⟨converted, rfl⟩
    | error cause =>
        rcases bind_eq_error.1 hconvert with hmap | ⟨entries, -, hpure⟩
        · obtain ⟨p, hp, hfails⟩ := mapM_eq_error hmap
          obtain ⟨literal, hliteral⟩ := h p (List.mem_mergeSort.1 hp)
          dsimp only at hfails
          rw [hliteral] at hfails
          cases hfails
        · cases hpure

theorem convertNode_eq_ok {n : NodeSpec} {op : Op} {props : Props} :
    convertNode n = .ok (op, props) ↔ Op.ofName n.op = .ok op ∧ convertProps n.props = .ok props := by
  constructor
  · intro h
    rw [convertNode] at h
    split at h
    · rename_i hop
      obtain ⟨known, hknown, h⟩ := bind_eq_ok.1 h
      obtain ⟨converted, hconverted, hpair⟩ := bind_eq_ok.1 h
      cases hknown
      cases hpair
      exact ⟨hop, hconverted⟩
    · cases h
  · rintro ⟨hop, hprops⟩
    rw [convertNode, hop, hprops]
    rfl

theorem convertNode_succeeds_iff {n : NodeSpec} :
    (∃ r, convertNode n = .ok r) ↔
      (∃ op ∈ Op.named, op.name = n.op) ∧ ∀ p ∈ n.props, ∃ literal, p.2.toLiteral = .ok literal := by
  rw [← convertProps_succeeds]
  constructor
  · rintro ⟨⟨op, props⟩, h⟩
    obtain ⟨hop, hprops⟩ := convertNode_eq_ok.1 h
    exact ⟨⟨op, ofName_eq_ok_iff.1 hop⟩, props, hprops⟩
  · rintro ⟨⟨op, hop⟩, props, hprops⟩
    exact ⟨(op, props), convertNode_eq_ok.2 ⟨ofName_eq_ok_iff.2 hop, hprops⟩⟩

/-! ## Nodes -/

/-- A node is created if its name is new and its operation and properties are in order. -/
theorem createNodes_cons_eq_ok {names : Names} {g : Graph} {n : NodeSpec} {rest : List NodeSpec}
    {r : Names × Graph} :
    createNodes names g (n :: rest) = .ok r ↔ names.lookup n.name = none ∧
      ∃ op props, convertNode n = .ok (op, props) ∧
        createNodes (names ++ [(n.name, (g.addNode op props).1)]) (g.addNode op props).2 rest = .ok r := by
  rw [createNodes]
  cases hname : names.lookup n.name with
  | some id => simp
  | none =>
      cases hconvert : convertNode n with
      | error cause => simp
      | ok converted =>
          obtain ⟨op, props⟩ := converted
          simp

theorem lookup_concat_eq_none {names : Names} {name other : String} {id : NodeId} :
    (names ++ [(name, id)]).lookup other = none ↔ names.lookup other = none ∧ other ≠ name := by
  rw [List.lookup_append, Option.or_eq_none_iff, List.lookup_cons]
  refine and_congr_right fun _ => ?_
  cases hname : other == name with
  | true => simpa using hname
  | false => simpa using hname

theorem lookup_concat_eq_some {names : Names} {name other : String} {id found : NodeId} :
    (names ++ [(name, id)]).lookup other = some found ↔
      names.lookup other = some found ∨ (names.lookup other = none ∧ name = other ∧ found = id) := by
  rw [List.lookup_append, Option.or_eq_some_iff, List.lookup_cons]
  refine or_congr_right (and_congr_right fun _ => ?_)
  cases hname : other == name with
  | true => simp [beq_iff_eq.1 hname, eq_comm]
  | false => simp [Ne.symm (beq_eq_false_iff_ne.1 hname)]

/-- Nodes can be created if each is in order by itself and their names are new and distinct. -/
theorem createNodes_succeeds_iff {names : Names} {g : Graph} {nodes : List NodeSpec} :
    (∃ r, createNodes names g nodes = .ok r) ↔
      (∀ n ∈ nodes, names.lookup n.name = none) ∧ (nodes.map NodeSpec.name).Nodup ∧
        ∀ n ∈ nodes, ∃ r, convertNode n = .ok r := by
  induction nodes generalizing names g with
  | nil => simp [createNodes]
  | cons n rest ih =>
      -- Whatever handle the new node gets, from now on its name is taken.
      have hnames : ∀ id : NodeId, (∀ m ∈ rest, (names ++ [(n.name, id)]).lookup m.name = none) ↔
          (∀ m ∈ rest, names.lookup m.name = none) ∧ n.name ∉ rest.map NodeSpec.name := by
        intro id
        simp only [lookup_concat_eq_none, List.mem_map, not_exists, not_and]
        exact forall₂_and
      simp only [createNodes_cons_eq_ok, List.forall_mem_cons, List.map_cons, List.nodup_cons]
      constructor
      · rintro ⟨r, hfresh, op, props, hconvert, hrest⟩
        obtain ⟨hlookup, hnodup, hothers⟩ := ih.1 ⟨r, hrest⟩
        obtain ⟨hnew, hname⟩ := (hnames _).1 hlookup
        exact ⟨⟨hfresh, hnew⟩, ⟨hname, hnodup⟩, ⟨(op, props), hconvert⟩, hothers⟩
      · rintro ⟨⟨hfresh, hnew⟩, ⟨hname, hnodup⟩, ⟨⟨op, props⟩, hconvert⟩, hothers⟩
        obtain ⟨r, hrest⟩ := ih.2 ⟨(hnames _).2 ⟨hnew, hname⟩, hnodup, hothers⟩
        exact ⟨r, hfresh, op, props, hconvert, hrest⟩

/-- A name that is found was there, or is that of a new node. -/
theorem lookup_createNodes {names names' : Names} {g g' : Graph} {nodes : List NodeSpec}
    (h : createNodes names g nodes = .ok (names', g')) (name : String) (id : NodeId) :
    names'.lookup name = some id ↔ names.lookup name = some id ∨
      ∃ (k : Nat) (n : NodeSpec), nodes[k]? = some n ∧ n.name = name ∧ id = Int.ofNat (g.arena.size + k) := by
  induction nodes generalizing names g with
  | nil =>
      cases h
      simp
  | cons n rest ih =>
      obtain ⟨hfresh, op, props, -, hrest⟩ := createNodes_cons_eq_ok.1 h
      rw [ih hrest, lookup_concat_eq_some, Graph.size_arena_addNode]
      constructor
      · rintro ((hold | ⟨-, hname, hid⟩) | ⟨k, m, hm, hname, hid⟩)
        · exact .inl hold
        · exact .inr ⟨0, n, rfl, hname, hid⟩
        · refine .inr ⟨k + 1, m, hm, hname, ?_⟩
          rw [hid, Nat.add_assoc, Nat.add_comm 1 k]
      · rintro (hold | ⟨k, m, hm, hname, hid⟩)
        · exact .inl (.inl hold)
        · cases k with
          | zero =>
              obtain rfl : n = m := by simpa using hm
              exact .inl (.inr ⟨hname ▸ hfresh, hname, hid⟩)
          | succ k =>
              refine .inr ⟨k, m, hm, hname, ?_⟩
              rw [hid, Nat.add_assoc, Nat.add_comm 1 k]

/-- New nodes have no edges. -/
theorem edges_createNodes {names names' : Names} {g g' : Graph} {nodes : List NodeSpec}
    (h : createNodes names g nodes = .ok (names', g')) (id : NodeId) :
    g'.inputs id = g.inputs id ∧ g'.outputs id = g.outputs id := by
  induction nodes generalizing names g with
  | nil =>
      cases h
      exact ⟨rfl, rfl⟩
  | cons n rest ih =>
      obtain ⟨-, op, props, -, hrest⟩ := createNodes_cons_eq_ok.1 h
      rw [(ih hrest).1, (ih hrest).2, Graph.inputs_addNode, Graph.outputs_addNode]
      exact ⟨rfl, rfl⟩

/-- Nodes are appended in the order of their descriptions. -/
theorem convertNode_createNodes {names names' : Names} {g g' : Graph} {nodes : List NodeSpec}
    (h : createNodes names g nodes = .ok (names', g')) :
    g'.arena.size = g.arena.size + nodes.length ∧
      (∀ id, g.has id = true → g'.op id = g.op id ∧ g'.props id = g.props id) ∧
      ∀ k n, nodes[k]? = some n →
        convertNode n = .ok (g'.op (Int.ofNat (g.arena.size + k)), g'.props (Int.ofNat (g.arena.size + k))) := by
  induction nodes generalizing names g with
  | nil =>
      cases h
      exact ⟨rfl, fun _ _ => ⟨rfl, rfl⟩, fun k n hn => by simp at hn⟩
  | cons n rest ih =>
      obtain ⟨-, op, props, hconvert, hrest⟩ := createNodes_cons_eq_ok.1 h
      obtain ⟨hsize, hold, hnew⟩ := ih hrest
      have hnext : (g.addNode op props).2.arena.size = g.arena.size + 1 := Graph.size_arena_addNode g op props
      rw [hnext] at hsize hnew
      have hfresh : ∀ id, g.has id = true → id ≠ (g.addNode op props).1 := by
        rintro id hid rfl
        rw [Graph.has, Graph.node?_addNode_fresh] at hid
        cases hid
      -- The first node is old for those behind it: its handle is live before they are created.
      refine ⟨by rw [hsize, List.length_cons]; omega, fun id hid => ?_, fun k m hm => ?_⟩
      · obtain ⟨hop, hprops⟩ := hold id (by rw [Graph.has_addNode, hid, Bool.or_true])
        rw [hop, hprops, Graph.op_addNode, Graph.props_addNode, if_neg (hfresh id hid), if_neg (hfresh id hid)]
        exact ⟨rfl, rfl⟩
      · cases k with
        | zero =>
            obtain rfl : n = m := by simpa using hm
            have hlive : (g.addNode op props).2.has (g.addNode op props).1 = true := by
              rw [Graph.has_addNode, decide_eq_true rfl, Bool.true_or]
            obtain ⟨hop, hprops⟩ := hold _ hlive
            show convertNode n = .ok (g'.op (g.addNode op props).1, g'.props (g.addNode op props).1)
            rw [hop, hprops, Graph.op_addNode, Graph.props_addNode, if_pos rfl, if_pos rfl]
            exact hconvert
        | succ k =>
            rw [← Nat.add_assoc, Nat.add_right_comm]
            exact hnew k m (by simpa using hm)

/-- Every name stands for a live node. -/
def Names.Live (names : Names) (g : Graph) : Prop :=
  ∀ name id, names.lookup name = some id → g.has id = true

/-- The nodes of a description, before they are linked. -/
structure Created (nodes : List NodeSpec) (names : Names) (g : Graph) : Prop where
  nodup : (nodes.map NodeSpec.name).Nodup
  size : g.arena.size = nodes.length
  lookup : ∀ name id, names.lookup name = some id ↔
    ∃ (k : Nat) (n : NodeSpec), nodes[k]? = some n ∧ n.name = name ∧ id = Int.ofNat k
  convert : ∀ (k : Nat) n, nodes[k]? = some n → convertNode n = .ok (g.op (Int.ofNat k), g.props (Int.ofNat k))
  inputs : ∀ id, g.inputs id = []
  outputs : ∀ id, g.outputs id = []

theorem created_of_createNodes {nodes : List NodeSpec} {names : Names} {g : Graph}
    (h : createNodes [] .empty nodes = .ok (names, g)) : Created nodes names g := by
  obtain ⟨hsize, -, hconvert⟩ := convertNode_createNodes h
  have hempty : Graph.empty.arena.size = 0 := rfl
  rw [hempty, Nat.zero_add] at hsize
  refine ⟨(createNodes_succeeds_iff.1 ⟨_, h⟩).2.1, hsize, fun name id => ?_, fun k n hn => ?_, fun id => ?_,
    fun id => ?_⟩
  · rw [lookup_createNodes h, hempty]
    simp
  · have hnode := hconvert k n hn
    rwa [hempty, Nat.zero_add] at hnode
  · rw [(edges_createNodes h id).1, Graph.inputs_eq_nil (Graph.has_empty id)]
  · rw [(edges_createNodes h id).2, Graph.outputs_eq_nil (Graph.has_empty id)]

namespace Created

variable {nodes : List NodeSpec} {names : Names} {g : Graph} (h : Created nodes names g)
include h

theorem op_mem {k : Nat} {n : NodeSpec} (hn : nodes[k]? = some n) :
    g.op (Int.ofNat k) ∈ Op.named ∧ (g.op (Int.ofNat k)).name = n.op :=
  ofName_eq_ok_iff.1 (convertNode_eq_ok.1 (h.convert k n hn)).1

theorem has_iff {id : NodeId} : g.has id = true ↔ ∃ k, k < nodes.length ∧ id = Int.ofNat k := by
  constructor
  · intro hid
    obtain ⟨k, hk, rfl⟩ := Graph.exists_slot_of_has hid
    exact ⟨k, h.size ▸ hk, rfl⟩
  · rintro ⟨k, hk, rfl⟩
    refine Graph.has_of_op_ne_invalid fun hinvalid => ?_
    have hmem := (h.op_mem (List.getElem?_eq_getElem hk)).1
    rw [hinvalid] at hmem
    exact absurd hmem (by decide)

theorem getD_lookup {k : Nat} {n : NodeSpec} (hn : nodes[k]? = some n) :
    (names.lookup n.name).getD (-1) = Int.ofNat k := by
  rw [(h.lookup n.name (Int.ofNat k)).2 ⟨k, n, hn, rfl, rfl⟩, Option.getD_some]

theorem live : names.Live g := by
  intro name id hlookup
  obtain ⟨k, n, hn, -, rfl⟩ := (h.lookup name id).1 hlookup
  exact h.has_iff.2 ⟨k, (List.getElem?_eq_some_iff.1 hn).1, rfl⟩

theorem consistent : g.Consistent := by
  refine Graph.consistent_empty.congr (fun id => ?_) fun id => ?_
  · rw [h.inputs, Graph.inputs_eq_nil (Graph.has_empty id)]
  · rw [h.outputs, Graph.outputs_eq_nil (Graph.has_empty id)]

end Created

end SeaOfNodes.Description
