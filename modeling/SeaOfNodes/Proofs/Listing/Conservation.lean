/-
  SeaOfNodes.Proofs.Listing.Conservation

  Listing a graph neither loses nor repeats an instruction, whatever its schedule
  edges are.  Simplifying the end of a block may drop a jump or split a branch into
  a conditional transfer and a jump, so what is kept are the instructions that are no
  jumps: each stands at the place of its node.
-/
import SeaOfNodes.Proofs.Listing.Coverage
import SeaOfNodes.Proofs.Listing.Execution
import Mathlib.Data.Set.Function

namespace SeaOfNodes.Listing

open Schedule

/-! ## Finished instructions -/

/-- The instruction of a node in the finished block of a chain: the one that it
    emits or, for a branch that ends the block, a transfer on its condition. -/
inductive StandsFor (g : Graph) (layout : Layout) (c : Chain) (id : NodeId) : Instr → Prop
  | emitted {x : Instr} (hemits : Emits g layout id x)
      (hplace : g.op id = .branch → c.nodes.getLast? ≠ some id) : StandsFor g layout c id x
  | decides {op : String} {condition : NodeId} {register : Register} {index : Nat}
      (hop : g.op id = .branch) (hlast : c.nodes.getLast? = some id)
      (hname : op = branchIfOp ∨ op = branchUnlessOp)
      (hcondition : soleInput g id .condition = .ok condition)
      (hregister : registerOf g condition = .ok register) :
      StandsFor g layout c id (conditional op (.ofRegister register) (.ofBlock (Int64.ofNat index)))

theorem StandsFor.op_ne_jump {g : Graph} {layout : Layout} {c : Chain} {id : NodeId} {x : Instr}
    (h : StandsFor g layout c id x) : x.op ≠ jumpOp := by
  cases h with
  | emitted hemits _ =>
      intro hop
      rw [hemits.op_eq] at hop
      exact opcode_notMem_transferOps (g.op id) (by simp [hop, transferOps])
  | decides _ _ hname _ _ =>
      rcases hname with rfl | rfl <;> simp [conditional, branchIfOp, branchUnlessOp, jumpOp]

/-- A jump to a block. -/
def IsJump (x : Instr) : Prop := ∃ index : Nat, x = jumpTo (.ofBlock (Int64.ofNat index))

theorem IsJump.op_eq {x : Instr} (h : IsJump x) : x.op = jumpOp := by
  obtain ⟨index, rfl⟩ := h
  rfl

/-- A jump to the block that follows is dropped, any other one kept. -/
theorem simplifyBlock_concat_jumpTo (follows : Int64) (body : List Instr) (index : Nat) :
    ∃ jumps, simplifyBlock follows (body ++ [jumpTo (.ofBlock (Int64.ofNat index))]) = body ++ jumps ∧
      ∀ x ∈ jumps, IsJump x := by
  rw [simplifyBlock_concat, simplifyLast_jumpTo]
  split
  · exact ⟨[], rfl, by simp⟩
  · exact ⟨_, rfl, fun x hx => ⟨index, List.mem_singleton.1 hx⟩⟩

/-- A branch at the end becomes a transfer on its condition, with or without a jump
    behind it. -/
theorem Emits.simplifyLast_branch {g : Graph} {layout : Layout} {c : Chain} {id : NodeId} {x : Instr}
    (h : Emits g layout id x) (hop : g.op id = .branch) (hlast : c.nodes.getLast? = some id)
    (follows : Int64) :
    ∃ y jumps, simplifyLast follows x = y :: jumps ∧ StandsFor g layout c id y ∧ ∀ z ∈ jumps, IsJump z := by
  obtain ⟨ways, htrailing⟩ := h.trailing_branch hop
  have hname : x.op = branchOp := by
    rw [h.op_eq, hop]
    rfl
  rw [Listing.simplifyLast_branch hname htrailing]
  split
  · exact ⟨_, [], rfl, .decides hop hlast (.inl rfl) ways.condition_eq ways.register_eq, by simp⟩
  · split
    · exact ⟨_, [], rfl, .decides hop hlast (.inr rfl) ways.condition_eq ways.register_eq, by simp⟩
    · exact ⟨_, _, rfl, .decides hop hlast (.inl rfl) ways.condition_eq ways.register_eq,
        fun z hz => ⟨ways.onFalse, List.mem_singleton.1 hz⟩⟩

/-! ## Finished blocks -/

/-- A finished block has the instructions of the nodes of its chain, in their order,
    and behind them only jumps. -/
structure Lists (g : Graph) (layout : Layout) (c : Chain) (instrs jumps : List Instr) : Prop where
  nodes : List.Forall₂ (StandsFor g layout c) (c.nodes.filter (emits g)) instrs
  jumps : ∀ x ∈ jumps, IsJump x

section Block

variable {g out : Graph} {chains : List Chain} (h : Covers g chains)
  (hagree : Graph.Agree (fun _ => true) g out) {layout : Layout} {c : Chain} (hc : c ∈ chains)
  {body raw : List Instr} (hb : EmittedBlock out layout c body raw)
include h hagree hc hb

/-- Where no branch ends the block every instruction stands as it was emitted. -/
theorem EmittedBlock.stands_of_plain_last (hplain : ∀ last, body.getLast? = some last → last.op ≠ branchOp) :
    List.Forall₂ (StandsFor out layout c) (c.nodes.filter (emits out)) body := by
  refine forall₂_imp_of_mem hb.nodes fun id hid x hx => .emitted hx fun hop hlast => ?_
  have hemits := (List.mem_filter.1 hid).2
  rw [emits_agree hagree] at hemits
  -- The branch would be the last node that emits an instruction, its own the last of the body.
  have hlastEmits : (c.nodes.filter (emits out)).getLast? = some id := by
    rw [emits_agree hagree]
    exact (h.getLast?_filter_emits hc hemits).2 hlast
  obtain ⟨last, hbody, hemit⟩ := exists_getLast?_of_forall₂ hb.nodes hlastEmits
  refine hplain last hbody ?_
  rw [hemit.op_eq, hop]
  rfl

/-- Where a branch ends the block, the transfer that it becomes stands in its place. -/
theorem EmittedBlock.lists_of_branch_last {front : List Instr} {last : Instr} (hbody : body = front ++ [last])
    (hbranch : last.op = branchOp) (follows : Int64) :
    ∃ y jumps, simplifyLast follows last = y :: jumps ∧ Lists out layout c (front ++ [y]) jumps := by
  subst hbody
  obtain ⟨frontIds, lastIds, hids, hfront, hlastIds⟩ :
      ∃ frontIds lastIds, c.nodes.filter (emits out) = frontIds ++ lastIds ∧
        List.Forall₂ (Emits out layout) frontIds front ∧ List.Forall₂ (Emits out layout) lastIds [last] := by
    obtain ⟨frontIds, lastIds, hids, hfront, hlast⟩ := forall₂_append_left hb.nodes.flip
    exact ⟨frontIds, lastIds, hids, hfront.flip, hlast.flip⟩
  obtain ⟨id, others, hid, hothers, rfl⟩ := List.forall₂_cons_right_iff.1 hlastIds
  obtain rfl := List.forall₂_nil_right_iff.1 hothers
  have hop : out.op id = .branch := by
    rw [← opcode_eq_branch, ← hid.op_eq]
    exact hbranch
  have hlastId : c.nodes.getLast? = some id := by
    refine (h.getLast?_filter_emits hc (by simp [emits, ← hagree.op, hop])).1 ?_
    rw [← emits_agree hagree, hids]
    simp
  obtain ⟨y, jumps, hsimplify, hy, hjumps⟩ := hid.simplifyLast_branch hop hlastId follows
  refine ⟨y, jumps, hsimplify, ?_, hjumps⟩
  -- The branch is the last node of the chain, so it is not among those before it.
  have hapart : id ∉ frontIds := by
    have hnodup := (h.nodup_nodes hc).filter (emits out)
    rw [hids, List.nodup_append] at hnodup
    exact fun hmem => hnodup.2.2 id hmem id (by simp) rfl
  rw [hids]
  refine List.rel_append (forall₂_imp_of_mem hfront fun other hother x hx => .emitted hx ?_) (.cons hy .nil)
  rintro - hother'
  rw [hlastId, Option.some.injEq] at hother'
  exact hapart (hother' ▸ hother)

/-- Simplifying the end of a block keeps the instructions of its nodes. -/
theorem EmittedBlock.lists (follows : Int64) :
    ∃ instrs jumps, simplifyBlock follows raw = instrs ++ jumps ∧ Lists out layout c instrs jumps := by
  rcases hb.ending with ⟨rfl, last, hlast, hclose⟩ | ⟨hplain, merge, index, -, -, rfl⟩
  · obtain ⟨front, hraw⟩ : ∃ front, raw = front ++ [last] :=
      ⟨raw.dropLast, (List.dropLast_append_getLast? last hlast).symm⟩
    by_cases hbranch : last.op = branchOp
    · obtain ⟨y, jumps, hsimplify, hlists⟩ := hb.lists_of_branch_last h hagree hc hraw hbranch follows
      refine ⟨front ++ [y], jumps, ?_, hlists⟩
      rw [hraw, simplifyBlock_concat, hsimplify, List.append_assoc, List.singleton_append]
    · subst hraw
      refine ⟨front ++ [last], [], ?_, ?_, by simp⟩
      · have hreturn : last.op = returnOp := hclose.resolve_right hbranch
        have hkept : simplifyLast follows last = [last] := by
          simp [simplifyLast, hreturn, returnOp, jumpOp, branchOp]
        rw [simplifyBlock_concat, hkept, List.append_nil]
      · refine hb.stands_of_plain_last h hagree hc fun x hx => ?_
        rw [hlast, Option.some.injEq] at hx
        exact hx ▸ hbranch
  · obtain ⟨jumps, hsimplify, hjumps⟩ := simplifyBlock_concat_jumpTo follows body index
    exact ⟨body, jumps, hsimplify, hb.stands_of_plain_last h hagree hc fun x hx => (hplain x hx).2, hjumps⟩

end Block

/-! ## The whole listing -/

/-- A listing of a graph, and the chains and the layout it was made with. -/
structure Laid (g out : Graph) (chains : List Chain) (layout : Layout) (blocks : List Block) : Prop where
  covers : Covers g chains
  out_eq : out = assignRegisters g chains
  length_eq : blocks.length = chains.length
  block : ∀ (i : Nat) (c : Chain), chains[i]? = some c →
    ∃ instrs jumps, blocks[i]? = some (instrs ++ jumps) ∧ Lists out layout c instrs jumps

theorem laid_of_linearize {g out : Graph} (hg : g.Consistent) {blocks : List Block}
    (h : linearize g = .done out blocks) :
    ∃ chains layout, plan g = .ok (chains, layout) ∧ Laid g out chains layout blocks := by
  obtain ⟨chains, layout, hplan, rfl, hemit⟩ := linearize_eq_done h
  have hcovers := covers_of_plan hg hplan
  have hagree := agree_assignRegisters g chains
  obtain ⟨raws, rfl, hraws⟩ := emitBlocks_eq_ok hemit
  refine ⟨chains, layout, hplan, hcovers, rfl, ?_, fun i c hc => ?_⟩
  · rw [length_simplify, hraws.length_eq]
  · obtain ⟨raw, hraw, body, hbody⟩ := forall₂_getElem? hraws hc
    obtain ⟨instrs, jumps, hsimplify, hlists⟩ :=
      hbody.lists hcovers hagree (List.mem_of_getElem? hc) (Int64.ofNat (i + 1))
    refine ⟨instrs, jumps, ?_, hlists⟩
    rw [getElem?_simplify, hraw, Option.map_some, hsimplify]

/-- The instruction at a place of a listing: the index of a block and one in the
    block. -/
def instrAt (blocks : List Block) (spot : Nat × Nat) : Option Instr :=
  (blocks[spot.1]?).bind fun block => block[spot.2]?

/-- The nodes of the chain at an index that emit an instruction. -/
def listedNodes (g : Graph) (chains : List Chain) (i : Nat) : List NodeId :=
  ((chains[i]?).map fun c => c.nodes.filter (emits g)).getD []

/-- The place of a node: the index of the chain it is on, and its index among the
    nodes of the chain that emit an instruction. -/
def place (g : Graph) (chains : List Chain) (id : NodeId) : Nat × Nat :=
  let i := chains.findIdx fun c => c.nodes.contains id
  (i, (listedNodes g chains i).idxOf id)

theorem mem_emits {g : Graph} {id : NodeId} : emits g id = true ↔ g.op id ≠ .start ∧ g.op id ≠ .merge := by
  simp [emits]

namespace Covers

variable {g : Graph} {chains : List Chain} (h : Covers g chains)
include h

/-- A node's place is determined by the chain it is on and its rank there. -/
theorem place_eq {i : Nat} {c : Chain} (hc : chains[i]? = some c) {id : NodeId} (hid : id ∈ c.nodes) :
    place g chains id = (i, (c.nodes.filter (emits g)).idxOf id) := by
  have hfind : (chains.findIdx fun c => c.nodes.contains id) = i := by
    have hexists : ∃ d ∈ chains, d.nodes.contains id = true :=
      ⟨c, List.mem_of_getElem? hc, by simpa using hid⟩
    have hlt := List.findIdx_lt_length_of_exists hexists
    have hcontains := List.findIdx_getElem (w := hlt)
    exact h.index_unique (List.getElem?_eq_getElem hlt) hc (by simpa using hcontains) hid
  simp only [place, hfind, listedNodes, hc, Option.map_some, Option.getD_some]

/-- Of two nodes of a chain the earlier one has the smaller rank. -/
theorem place_lt {i : Nat} {c : Chain} (hc : chains[i]? = some c) {a b : NodeId} (hb : b ∈ c.nodes)
    (ha : emits g a = true) (hemits : emits g b = true) (hbefore : Precedes c.nodes a b) :
    (place g chains a).2 < (place g chains b).2 := by
  have hnodup := h.nodup_nodes (List.mem_of_getElem? hc)
  -- Split the chain at the later node: the earlier one is in front of it, filtered or not.
  obtain ⟨front, back, hsplit⟩ := List.append_of_mem hb
  have hfront : a ∈ front := by
    rw [Precedes, hsplit] at hbefore
    by_contra hnot
    have hnotB : b ∉ front := by
      rw [hsplit] at hnodup
      exact fun hmem => (List.nodup_append.1 hnodup).2.2 b hmem b (by simp) rfl
    rw [List.idxOf_append_of_notMem hnot, List.idxOf_append_of_notMem hnotB, List.idxOf_cons_self] at hbefore
    omega
  have hmem : a ∈ c.nodes := by
    rw [hsplit]
    simp [hfront]
  have hfilter : c.nodes.filter (emits g) = front.filter (emits g) ++ b :: back.filter (emits g) := by
    rw [hsplit, List.filter_append, List.filter_cons, if_pos hemits]
  rw [h.place_eq hc hmem, h.place_eq hc hb]
  exact precedes_of_mem_before (hnodup.filter _) hfilter (List.mem_filter.2 ⟨hfront, ha⟩)

end Covers

namespace Laid

variable {g out : Graph} {chains : List Chain} {layout : Layout} {blocks : List Block}
  (h : Laid g out chains layout blocks)
include h

theorem agree : Graph.Agree (fun _ => true) g out := by
  rw [h.out_eq]
  exact agree_assignRegisters g chains

/-- At the place of a node stands the instruction of the node. -/
theorem instrAt_place {id : NodeId} (hid : g.has id = true) (hemits : emits g id = true) :
    ∃ c x, chains[(place g chains id).1]? = some c ∧ id ∈ c.nodes ∧
      instrAt blocks (place g chains id) = some x ∧ StandsFor out layout c id x := by
  obtain ⟨i, c, hc, hmem⟩ := h.covers.exists_chain hid
  obtain ⟨instrs, jumps, hblock, hlists⟩ := h.block i c hc
  have hlisted : id ∈ c.nodes.filter (emits g) := List.mem_filter.2 ⟨hmem, hemits⟩
  have hrank : (c.nodes.filter (emits out))[(c.nodes.filter (emits g)).idxOf id]? = some id := by
    rw [emits_agree h.agree]
    exact List.getElem?_idxOf hlisted
  obtain ⟨x, hx, hstands⟩ := forall₂_getElem? hlists.nodes hrank
  rw [h.covers.place_eq hc hmem]
  refine ⟨c, x, hc, hmem, ?_, hstands⟩
  have hlt := (List.getElem?_eq_some_iff.1 hx).1
  rw [instrAt, hblock, Option.bind_some, List.getElem?_append_left hlt]
  exact hx

/-- An instruction stands at the place of a node, or is a jump. -/
theorem exists_place_or_jump {spot : Nat × Nat} {x : Instr} (hx : instrAt blocks spot = some x) :
    (∃ id c, g.has id = true ∧ emits g id = true ∧ place g chains id = spot ∧ chains[spot.1]? = some c ∧
      id ∈ c.nodes ∧ StandsFor out layout c id x) ∨ IsJump x := by
  obtain ⟨i, k⟩ := spot
  obtain ⟨block, hblock, hk⟩ := Option.bind_eq_some_iff.1 hx
  obtain ⟨hi, -⟩ := List.getElem?_eq_some_iff.1 hblock
  rw [h.length_eq] at hi
  have hc : chains[i]? = some (chains.get ⟨i, hi⟩) := by simp
  obtain ⟨instrs, jumps, hsplit, hlists⟩ := h.block i _ hc
  rw [hblock, Option.some.injEq] at hsplit
  subst hsplit
  by_cases hlt : k < instrs.length
  · have hnodes := hlists.nodes
    rw [emits_agree h.agree] at hnodes
    have hrank : k < ((chains.get ⟨i, hi⟩).nodes.filter (emits g)).length := by
      rw [hnodes.length_eq]
      exact hlt
    obtain ⟨hmem, hemits⟩ := List.mem_filter.1 (List.getElem_mem hrank)
    obtain ⟨y, hy, hstands⟩ := forall₂_getElem? hnodes (List.getElem?_eq_getElem hrank)
    change (instrs ++ jumps)[k]? = some x at hk
    rw [List.getElem?_append_left hlt, hy, Option.some.injEq] at hk
    subst hk
    refine .inl ⟨_, _, h.covers.has_of_mem (List.mem_of_getElem? hc) hmem, hemits, ?_, hc, hmem, hstands⟩
    have hnodup := (h.covers.nodup_nodes (List.mem_of_getElem? hc)).filter (emits g)
    rw [h.covers.place_eq hc hmem, hnodup.idxOf_getElem]
  · -- What stands behind the instructions of the nodes are jumps.
    change (instrs ++ jumps)[k]? = some x at hk
    rw [List.getElem?_append_right (Nat.le_of_not_lt hlt)] at hk
    exact .inr (hlists.jumps x (List.mem_of_getElem? hk))

/-- An instruction that is no jump stands at the place of a node. -/
theorem exists_place {spot : Nat × Nat} {x : Instr} (hx : instrAt blocks spot = some x) (hop : x.op ≠ jumpOp) :
    ∃ id, g.has id = true ∧ emits g id = true ∧ place g chains id = spot := by
  rcases h.exists_place_or_jump hx with ⟨id, _, hid, hemits, hplace, -⟩ | hjump
  · exact ⟨id, hid, hemits, hplace⟩
  · exact absurd hjump.op_eq hop

/-- Nodes at one place are one node. -/
theorem place_inj {a b : NodeId} (ha : g.has a = true) (hemits : emits g a = true) (hb : g.has b = true)
    (hplace : place g chains a = place g chains b) : a = b := by
  obtain ⟨i, c, hc, hmem⟩ := h.covers.exists_chain ha
  obtain ⟨j, d, hd, hmem'⟩ := h.covers.exists_chain hb
  rw [h.covers.place_eq hc hmem, h.covers.place_eq hd hmem', Prod.mk.injEq] at hplace
  obtain ⟨rfl, hrank⟩ := hplace
  rw [hc, Option.some.injEq] at hd
  subst hd
  exact (List.idxOf_inj (List.mem_filter.2 ⟨hmem, hemits⟩)).1 hrank

end Laid

/-- The instruction at the place of a node: its operation is that of the node, a
    branch that ends its block deciding between two blocks, and it writes the
    register of the node if the node produces a value. -/
structure ListedAs (g out : Graph) (c : Chain) (id : NodeId) (x : Instr) : Prop where
  plain : (g.op id = .branch → c.nodes.getLast? ≠ some id) → x.op = opcode (g.op id)
  ends : g.op id = .branch → c.nodes.getLast? = some id → x.op = branchIfOp ∨ x.op = branchUnlessOp
  writes : g.producesValue id = true → registerOf out id = .ok x.dest
  silent : g.producesValue id = false → x.dest = noRegister

theorem StandsFor.listedAs {g out : Graph} (hagree : Graph.Agree (fun _ => true) g out) {layout : Layout}
    {c : Chain} {id : NodeId} {x : Instr} (h : StandsFor out layout c id x) : ListedAs g out c id x := by
  have hproduces : out.producesValue id = g.producesValue id := by
    rw [Graph.producesValue, hagree.op, ← Graph.producesValue]
  cases h with
  | emitted hemits hplace =>
      rw [hagree.op] at hplace
      have hdest := hemits.destination_eq
      rw [destination, hproduces] at hdest
      refine ⟨fun _ => by rw [hemits.op_eq, hagree.op], fun hop hlast => absurd hlast (hplace hop),
        fun hvalue => ?_, fun hvalue => ?_⟩
      · rw [if_pos hvalue] at hdest
        cases hregister : (out.props id).int? Props.register with
        | none =>
            rw [hregister] at hdest
            cases hdest
        | some r =>
            rw [hregister] at hdest
            rw [registerOf, hregister]
            exact hdest
      · rw [if_neg (by simp [hvalue])] at hdest
        exact (Except.ok.inj hdest).symm
  | decides hop hlast hname _ _ =>
      rw [hagree.op] at hop
      refine ⟨fun hplace => absurd hlast (hplace hop), fun _ _ => hname, fun hvalue => ?_, fun _ => rfl⟩
      simp [Graph.producesValue, hop, Op.producesValue] at hvalue

/-- Instructions are conserved.  Whatever the schedule edges are, the live nodes but
    starts and merges correspond one to one to the instructions that are no jumps:
    each is listed once, in the block of the chain that has it, in the order of the
    chain, under its own operation and with its own register. -/
theorem linearize_conserves_instructions (g : Graph) (hg : g.Consistent) (out : Graph) (blocks : List Block)
    (h : linearize g = .done out blocks) :
    ∃ chains, Covers g chains ∧ blocks.length = chains.length ∧
      Set.BijOn (place g chains) {id | g.has id = true ∧ g.op id ≠ .start ∧ g.op id ≠ .merge}
        {spot | ∃ x, instrAt blocks spot = some x ∧ x.op ≠ jumpOp} ∧
      ∀ id, g.has id = true → g.op id ≠ .start → g.op id ≠ .merge →
        ∃ c x, chains[(place g chains id).1]? = some c ∧ id ∈ c.nodes ∧
          instrAt blocks (place g chains id) = some x ∧ ListedAs g out c id x ∧
          ∀ earlier, g.op earlier ≠ .start → g.op earlier ≠ .merge → Precedes c.nodes earlier id →
            (place g chains earlier).2 < (place g chains id).2 := by
  obtain ⟨chains, layout, -, hlaid⟩ := laid_of_linearize hg h
  -- The places are those of instructions, differ between nodes, and leave out only jumps.
  refine ⟨chains, hlaid.covers, hlaid.length_eq, ⟨?_, ?_, ?_⟩, ?_⟩
  · rintro id ⟨hid, hop⟩
    obtain ⟨_, x, -, -, hx, hstands⟩ := hlaid.instrAt_place hid (mem_emits.2 hop)
    exact ⟨x, hx, hstands.op_ne_jump⟩
  · rintro a ⟨ha, hop⟩ b ⟨hb, -⟩ hplace
    exact hlaid.place_inj ha (mem_emits.2 hop) hb hplace
  · rintro spot ⟨x, hx, hjump⟩
    obtain ⟨id, hid, hemits, hplace⟩ := hlaid.exists_place hx hjump
    exact ⟨id, ⟨hid, mem_emits.1 hemits⟩, hplace⟩
  · intro id hid hstart hmerge
    have hemits := mem_emits.2 ⟨hstart, hmerge⟩
    obtain ⟨c, x, hc, hmem, hx, hstands⟩ := hlaid.instrAt_place hid hemits
    refine ⟨c, x, hc, hmem, hx, hstands.listedAs hlaid.agree, fun earlier hstart' hmerge' hbefore => ?_⟩
    exact hlaid.covers.place_lt hc hmem (mem_emits.2 ⟨hstart', hmerge'⟩) hemits hbefore

/-- A branch before the end of a block, which its schedule edges lead past, and one
    that is a block of its own. -/
def strayBranch : Graph :=
  .assemble [.start, .arg, .branch, .branch, .finish, .finish, .finish, .finish]
    [⟨0, 2, .control⟩, ⟨1, 2, .condition⟩, ⟨2, 3, .ifTrue⟩, ⟨2, 4, .ifFalse⟩, ⟨1, 3, .condition⟩,
      ⟨3, 6, .ifTrue⟩, ⟨3, 7, .ifFalse⟩, ⟨0, 1, .localSchedule⟩, ⟨1, 2, .localSchedule⟩, ⟨2, 5, .localSchedule⟩]

theorem consistent_strayBranch : strayBranch.Consistent := Graph.consistent_assemble (by decide)

/-- Its listing: only the branch that ends its block is split. -/
def strayBranchBlocks : List Block :=
  [[conditional branchIfOp (.ofRegister 0) (.ofBlock 3), jumpTo (.ofBlock 4)],
    [⟨"arg", 0, [], [], []⟩, ⟨branchOp, noRegister, [], [], [.ofRegister 0, .ofBlock 0, .ofBlock 2]⟩,
      ⟨returnOp, noRegister, [], [], []⟩],
    [⟨returnOp, noRegister, [], [], []⟩], [⟨returnOp, noRegister, [], [], []⟩],
    [⟨returnOp, noRegister, [], [], []⟩]]

/-- The seven nodes but the start are listed once each, beside one jump. -/
theorem linearize_strayBranch_conserves :
    strayBranch.Consistent ∧ ∃ out, linearize strayBranch = .done out strayBranchBlocks ∧
      ∃ chains, Covers strayBranch chains ∧
        Set.BijOn (place strayBranch chains)
          {id | strayBranch.has id = true ∧ strayBranch.op id ≠ .start ∧ strayBranch.op id ≠ .merge}
          {spot | ∃ x, instrAt strayBranchBlocks spot = some x ∧ x.op ≠ jumpOp} := by
  have hlist := Outcome.eq_done (show (linearize strayBranch).result = .ok strayBranchBlocks by cbv)
  obtain ⟨chains, hcovers, -, hbij, -⟩ := linearize_conserves_instructions strayBranch consistent_strayBranch
    _ _ hlist
  exact ⟨consistent_strayBranch, _, hlist, chains, hcovers, hbij⟩

end SeaOfNodes.Listing
