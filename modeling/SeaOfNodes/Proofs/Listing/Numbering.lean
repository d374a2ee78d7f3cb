/-
  SeaOfNodes.Proofs.Listing.Numbering

  The registers of a graph that came without any.  The values on the chains are
  numbered from zero up, each with a number of its own, and no other node has a
  register.
-/
import SeaOfNodes.Proofs.Listing.Listed

namespace SeaOfNodes.Listing

open Schedule

/-! ## Numbering a list of nodes -/

theorem firstFree_of_fresh {g : Graph} (hfresh : ∀ id, (g.props id).has Props.register = false) (next : Int64)
    (ids : List NodeId) : firstFree g next ids = next := by
  induction ids generalizing next with
  | nil => rfl
  | cons id rest ih =>
      rw [firstFree, Props.int?_eq_none (hfresh id)]
      exact ih next

theorem producesValue_setProp (g : Graph) (id : NodeId) (key : String) (value : Literal) :
    (g.setProp id key value).producesValue = g.producesValue := by
  funext other
  simp [Graph.producesValue]

theorem needsRegister_iff {g : Graph} {id : NodeId} :
    needsRegister g id = true ↔ g.producesValue id = true ∧ (g.props id).has Props.register = false := by
  rw [needsRegister, Bool.and_eq_true, Bool.not_eq_true']

/-- The nodes of a list that wait for a register, in the order in which they are met. -/
def awaiting (g : Graph) (ids : List NodeId) : List NodeId := (ids.filter (needsRegister g)).eraseDups

theorem mem_awaiting {g : Graph} {ids : List NodeId} {id : NodeId} :
    id ∈ awaiting g ids ↔ id ∈ ids ∧ needsRegister g id = true := by
  rw [awaiting, List.mem_eraseDups, List.mem_filter]

theorem eraseDups_of_nodup {l : List NodeId} (h : l.Nodup) : l.eraseDups = l := by
  induction l with
  | nil => rfl
  | cons x rest ih =>
      obtain ⟨hx, hrest⟩ := List.nodup_cons.1 h
      have hkept : rest.filter (fun y => !y == x) = rest := by
        apply List.filter_eq_self.2
        intro y hy
        have hne : y ≠ x := fun hyx => hx (hyx ▸ hy)
        simpa using hne
      rw [List.eraseDups_cons, hkept, ih hrest]

theorem nodup_eraseDups (l : List NodeId) : l.eraseDups.Nodup := by
  match l with
  | [] => exact List.nodup_nil
  | x :: rest =>
      -- What follows the first member is shorter, for it is left out of the rest.
      have hless : (rest.filter fun y => !y == x).length < (x :: rest).length :=
        Nat.lt_succ_of_le (List.length_filter_le _ rest)
      rw [List.eraseDups_cons, List.nodup_cons, List.mem_eraseDups, List.mem_filter]
      exact ⟨by simp, nodup_eraseDups (rest.filter fun y => !y == x)⟩
termination_by l.length
decreasing_by exact hless

theorem nodup_awaiting (g : Graph) (ids : List NodeId) : (awaiting g ids).Nodup := nodup_eraseDups _

theorem has_of_needsRegister {g : Graph} {id : NodeId} (h : needsRegister g id = true) : g.has id = true := by
  apply Graph.has_of_op_ne_invalid
  intro hop
  simp [needsRegister, Graph.producesValue, hop, Op.producesValue] at h

/-- A node that gets a register waits no longer; the others still do. -/
theorem needsRegister_setProp {g : Graph} {x : NodeId} (hx : needsRegister g x = true) (value : Literal)
    (y : NodeId) : needsRegister (g.setProp x Props.register value) y = (needsRegister g y && !y == x) := by
  rw [needsRegister, needsRegister, producesValue_setProp, Graph.props_setProp]
  by_cases hy : y = x
  · rw [if_pos ⟨hy, has_of_needsRegister hx⟩]
    simp [hy, Props.has]
  · rw [if_neg fun h => hy h.1]
    simp [hy]

theorem awaiting_cons_of_needs {g : Graph} {x : NodeId} (hx : needsRegister g x = true) (value : Literal)
    (rest : List NodeId) : awaiting g (x :: rest) = x :: awaiting (g.setProp x Props.register value) rest := by
  have hothers : rest.filter (needsRegister (g.setProp x Props.register value))
      = (rest.filter (needsRegister g)).filter fun y => !y == x := by
    rw [List.filter_filter]
    apply List.filter_congr
    intro y _
    rw [needsRegister_setProp hx, Bool.and_comm]
  rw [awaiting, List.filter_cons_of_pos hx, List.eraseDups_cons, awaiting, hothers]

/-- The nodes of a list that wait for a register are numbered from `next` up, in 64 bits; nothing else
    changes. -/
theorem props_numberNodes (g : Graph) (next : Int64) (ids : List NodeId) (id : NodeId) :
    (numberNodes g next ids).props id
      = if id ∈ awaiting g ids then
          (g.props id).set Props.register (.int (next + Int64.ofNat ((awaiting g ids).idxOf id)))
        else g.props id := by
  induction ids generalizing g next with
  | nil => rfl
  | cons x rest ih =>
      rw [numberNodes]
      split
      case isTrue hx =>
        rw [ih, awaiting_cons_of_needs hx (.int next), Graph.props_setProp]
        by_cases hid : id = x
        · -- The node has been numbered now, so the rest leaves it alone.
          have hdone : x ∉ awaiting (g.setProp x Props.register (.int next)) rest := by
            rw [mem_awaiting, needsRegister_setProp hx]
            simp
          have hfirst : next + Int64.ofNat 0 = next := Int64.add_zero next
          subst hid
          rw [if_neg hdone, if_pos ⟨rfl, has_of_needsRegister hx⟩, if_pos List.mem_cons_self, List.idxOf_cons_self,
            hfirst]
        · have hlater : ∀ i : Nat, next + 1 + Int64.ofNat i = next + Int64.ofNat (i + 1) := by
            intro i
            have hsucc : Int64.ofNat (i + 1) = 1 + Int64.ofNat i := by
              rw [Nat.add_comm, Int64.ofNat_add]
              rfl
            rw [hsucc, Int64.add_assoc]
          have hother : ¬ (id = x ∧ g.has x = true) := fun h => hid h.1
          rw [if_neg hother, List.idxOf_cons_ne _ (Ne.symm hid), hlater]
          simp only [List.mem_cons, hid, false_or]
      case isFalse hx =>
        rw [ih, awaiting, awaiting, List.filter_cons_of_neg hx]

/-- Of a list without repetitions whose nodes have no registers the values wait for one. -/
theorem awaiting_of_fresh {g : Graph} {ids : List NodeId} (hnodup : ids.Nodup)
    (hfresh : ∀ id ∈ ids, (g.props id).has Props.register = false) :
    awaiting g ids = ids.filter g.producesValue := by
  have hneeds : ids.filter (needsRegister g) = ids.filter g.producesValue := by
    apply List.filter_congr
    intro id hid
    simp [needsRegister, hfresh id hid]
  rw [awaiting, hneeds, eraseDups_of_nodup (hnodup.filter _)]

/-! ## Registers -/

theorem registerOf_eq_ok_iff {g : Graph} {id : NodeId} {r : Register} :
    registerOf g id = .ok r ↔ (g.props id).int? Props.register = some r := by
  unfold registerOf
  cases (g.props id).int? Props.register with
  | none => exact ⟨fun h => (by cases h), fun h => (by cases h)⟩
  | some other => exact ⟨fun h => by rw [Except.ok.inj h], fun h => by rw [Option.some.inj h]⟩

/-- The number of a value among those of all chains. -/
def valueNumber (s : Graph) (chains : List Chain) (id : NodeId) : Nat :=
  ((chains.flatMap Chain.nodes).filter s.producesValue).idxOf id

/-- The values on chains that meet no node twice have been numbered, and no node had a
    register before. -/
structure FreshlyNumbered (g out : Graph) (chains : List Chain) : Prop where
  nodup : (chains.flatMap Chain.nodes).Nodup
  live : ∀ id ∈ chains.flatMap Chain.nodes, g.has id = true
  fresh : ∀ id, (g.props id).has Props.register = false
  out_eq : out = assignRegisters g chains

namespace FreshlyNumbered

variable {g out : Graph} {chains : List Chain} (h : FreshlyNumbered g out chains)
include h

theorem props_out (id : NodeId) :
    out.props id = if id ∈ chains.flatMap Chain.nodes ∧ g.producesValue id = true then
        (g.props id).set Props.register (.int (Int64.ofNat (valueNumber g chains id)))
      else g.props id := by
  have hvalues := awaiting_of_fresh h.nodup fun id _ => h.fresh id
  have hzero : ∀ i : Nat, 0 + Int64.ofNat i = Int64.ofNat i := fun i => Int64.zero_add _
  rw [h.out_eq, assignRegisters, firstFree_of_fresh h.fresh, props_numberNodes, hvalues, hzero]
  simp only [List.mem_filter]
  rfl

/-- Exactly the values on the chains have registers. -/
theorem registerOf_eq_ok {id : NodeId} {r : Register} :
    registerOf out id = .ok r ↔ (id ∈ chains.flatMap Chain.nodes ∧ g.producesValue id = true) ∧
      r = Int64.ofNat (valueNumber g chains id) := by
  rw [registerOf_eq_ok_iff, Props.int?, h.props_out]
  by_cases hvalue : id ∈ chains.flatMap Chain.nodes ∧ g.producesValue id = true
  · rw [if_pos hvalue, Props.get?_set_self]
    exact ⟨fun hr => ⟨hvalue, (Option.some.inj hr).symm⟩, fun hr => by rw [hr.2]; rfl⟩
  · have hget : (g.props id).get? Props.register = none := by simpa [Props.has] using h.fresh id
    rw [if_neg hvalue, hget]
    exact ⟨fun hr => (by cases hr), fun hr => absurd hr.1 hvalue⟩

/-- There are no more nodes on chains than slots in the arena. -/
theorem length_nodes_le : (chains.flatMap Chain.nodes).length ≤ g.arena.size := by
  have hle := (h.nodup.subperm fun id hid => Graph.mem_ids.2 (h.live id hid)).length_le
  have hids := g.length_ids_le
  omega

variable (hsize : g.arena.size < 2 ^ 63)
include hsize

theorem valueNumber_lt {id : NodeId} (hid : id ∈ chains.flatMap Chain.nodes) (hvalue : g.producesValue id = true) :
    valueNumber g chains id < 2 ^ 63 := by
  have hmem : id ∈ (chains.flatMap Chain.nodes).filter g.producesValue := List.mem_filter.2 ⟨hid, hvalue⟩
  have hlt := List.idxOf_lt_length_iff.2 hmem
  have hfilter := List.length_filter_le g.producesValue (chains.flatMap Chain.nodes)
  have hle := h.length_nodes_le
  unfold valueNumber
  omega

/-- Two nodes do not share a register. -/
theorem registerOf_inj {x y : NodeId} {r : Register} (hx : registerOf out x = .ok r)
    (hy : registerOf out y = .ok r) : x = y := by
  obtain ⟨⟨hxmem, hxvalue⟩, rfl⟩ := h.registerOf_eq_ok.1 hx
  obtain ⟨⟨hymem, hyvalue⟩, hsame⟩ := h.registerOf_eq_ok.1 hy
  have hnumber : valueNumber g chains x = valueNumber g chains y := by
    have hint := congrArg Int64.toInt hsame
    rw [Int64.toInt_ofNat_of_lt (h.valueNumber_lt hsize hxmem hxvalue),
      Int64.toInt_ofNat_of_lt (h.valueNumber_lt hsize hymem hyvalue)] at hint
    exact_mod_cast hint
  exact (List.idxOf_inj (List.mem_filter.2 ⟨hxmem, hxvalue⟩)).1 hnumber

theorem registerOf_ne_noRegister {x : NodeId} {r : Register} (hx : registerOf out x = .ok r) :
    r ≠ noRegister := by
  obtain ⟨⟨hxmem, hxvalue⟩, rfl⟩ := h.registerOf_eq_ok.1 hx
  intro hnone
  have hint := congrArg Int64.toInt hnone
  rw [Int64.toInt_ofNat_of_lt (h.valueNumber_lt hsize hxmem hxvalue)] at hint
  have hneg : noRegister.toInt = -1 := by decide
  omega

end FreshlyNumbered

/-! ## The nodes of all chains -/

namespace Planned

variable {s : Graph} {order : NodeId → List NodeId} {chains : List Chain} {layout : Layout}
  (h : Planned s order chains layout)
include h

theorem nodup_chains : chains.Nodup :=
  List.Nodup.of_map Chain.first (h.firsts.nodup_iff.2 (nodup_blockFirsts s))

/-- Chains are told apart by their first nodes. -/
theorem eq_of_first_eq {c d : Chain} (hc : c ∈ chains) (hd : d ∈ chains) (hfirst : c.first = d.first) :
    c = d := by
  have hchain := h.chainFrom_eq c hc
  rw [hfirst, h.chainFrom_eq d hd] at hchain
  exact (Except.ok.inj hchain).symm

variable (hs : Scheduled s order)
include hs

/-- A node is on one chain only. -/
theorem eq_of_mem_nodes {c d : Chain} (hc : c ∈ chains) (hd : d ∈ chains) {id : NodeId} (hid : id ∈ c.nodes)
    (hid' : id ∈ d.nodes) : c = d := by
  have hcOf := h.chainOf c hc
  have hdOf := h.chainOf d hd
  obtain ⟨hmem, hown⟩ := (hcOf.mem_nodes_iff hs).1 hid
  obtain ⟨hmem', hown'⟩ := (hdOf.mem_nodes_iff hs).1 hid'
  exact h.eq_of_first_eq hc hd
    (hs.eq_of_mem_blockMembers hcOf.first_mem hdOf.first_mem hmem hmem' hown hown')

/-- So it is in one block. -/
theorem index_unique {i j : Nat} {c d : Chain} (hc : chains[i]? = some c) (hd : chains[j]? = some d)
    {id : NodeId} (hid : id ∈ c.nodes) (hid' : id ∈ d.nodes) : i = j := by
  have heq := h.eq_of_mem_nodes hs (List.mem_of_getElem? hc) (List.mem_of_getElem? hd) hid hid'
  subst heq
  obtain ⟨hi, -⟩ := List.getElem?_eq_some_iff.1 hc
  exact (List.getElem?_inj hi h.nodup_chains).1 (hc.trans hd.symm)

theorem has_of_mem_nodes {c : Chain} (hc : c ∈ chains) {id : NodeId} (hid : id ∈ c.nodes) :
    s.has id = true :=
  (mem_blockMembers.1 (((h.chainOf c hc).mem_nodes_iff hs).1 hid).1).1

theorem nodup_nodes : (chains.flatMap Chain.nodes).Nodup := by
  have hkeys : ((chains.flatMap Chain.nodes).map fun id => id).Nodup := by
    refine nodup_map_flatMap h.nodup_chains (fun c hc => ?_) ?_
    · rw [List.map_id']
      exact (h.chainOf c hc).nodup_nodes hs
    · intro c hc d hd hne x hx y hy hxy
      exact hne (h.eq_of_mem_nodes hs hc hd hx (hxy ▸ hy))
  rwa [List.map_id'] at hkeys

theorem numbered (hfresh : ∀ id, (s.props id).has Props.register = false) :
    FreshlyNumbered s (assignRegisters s chains) chains := by
  refine ⟨h.nodup_nodes hs, fun id hid => ?_, hfresh, rfl⟩
  obtain ⟨c, hc, hid⟩ := List.mem_flatMap.1 hid
  exact h.has_of_mem_nodes hs hc hid

theorem props_assignRegisters (hfresh : ∀ id, (s.props id).has Props.register = false) (id : NodeId) :
    (assignRegisters s chains).props id = if id ∈ chains.flatMap Chain.nodes ∧ s.producesValue id = true then
        (s.props id).set Props.register (.int (Int64.ofNat (valueNumber s chains id)))
      else s.props id :=
  (h.numbered hs hfresh).props_out id

end Planned

namespace Listed

variable {s out : Graph} {order : NodeId → List NodeId} {chains : List Chain} {layout : Layout}
  {blocks : List Block} (h : Listed s order out chains layout blocks) (hs : Scheduled s order)
  (hfresh : ∀ id, (s.props id).has Props.register = false)
include h hs hfresh

theorem numbered : FreshlyNumbered s out chains := by
  rw [h.out_eq]
  exact h.planned.numbered hs hfresh

theorem registerOf_eq_ok {id : NodeId} {r : Register} :
    registerOf out id = .ok r ↔ ((∃ c ∈ chains, id ∈ c.nodes) ∧ s.producesValue id = true) ∧
      r = Int64.ofNat (valueNumber s chains id) := by
  rw [(h.numbered hs hfresh).registerOf_eq_ok, List.mem_flatMap]

variable (hsize : s.arena.size < 2 ^ 63)
include hsize

theorem registerOf_inj {x y : NodeId} {r : Register} (hx : registerOf out x = .ok r)
    (hy : registerOf out y = .ok r) : x = y :=
  (h.numbered hs hfresh).registerOf_inj hsize hx hy

theorem registerOf_ne_noRegister {x : NodeId} {r : Register} (hx : registerOf out x = .ok r) :
    r ≠ noRegister :=
  (h.numbered hs hfresh).registerOf_ne_noRegister hsize hx

end Listed

end SeaOfNodes.Listing
