/-
  SeaOfNodes.Proofs.Listing.FreshRegisters

  The registers of a listing whose graph came without any.  From the first block to
  the last the instructions write the registers from zero up, one after the other, and
  a register that is read links the edge it stands for to the only instruction that
  writes it.  Both hold whatever order the blocks are in: a value may well be read in a
  block before the one that writes it.
-/
import SeaOfNodes.Proofs.Listing.Conservation
import SeaOfNodes.Proofs.Listing.ControlFlow

namespace SeaOfNodes.Listing

open Schedule

theorem IsJump.dest_eq {x : Instr} (h : IsJump x) : x.dest = noRegister := by
  obtain ⟨index, rfl⟩ := h
  rfl

theorem IsJump.registersRead_eq {x : Instr} (h : IsJump x) : registersRead x = [] := by
  obtain ⟨index, rfl⟩ := h
  simp [registersRead, jumpTo, operandRegisters, Operand.ofBlock]

/-- A node without an instruction has no value either. -/
theorem emits_of_producesValue {g : Graph} {id : NodeId} (h : g.producesValue id = true) : emits g id = true := by
  rw [mem_emits]
  constructor <;> intro hop <;> simp [Graph.producesValue, hop, Op.producesValue] at h

/-- In a list without repetitions the indices of the elements count up from zero. -/
theorem map_idxOf_eq_range {α : Type} [BEq α] [LawfulBEq α] {l : List α} (h : l.Nodup) :
    l.map l.idxOf = List.range l.length := by
  refine List.ext_getElem (by simp) fun i hi _ => ?_
  rw [List.getElem_map, List.getElem_range]
  exact h.idxOf_getElem i (by simpa using hi)

/-- The values of all chains have the numbers from zero up, in their order. -/
theorem map_valueNumber {g : Graph} {chains : List Chain} (h : Covers g chains) :
    ((chains.flatMap Chain.nodes).filter g.producesValue).map (valueNumber g chains)
      = List.range (g.ids.filter g.producesValue).length := by
  have hperm : (chains.flatMap Chain.nodes).Perm g.ids := by
    rw [List.perm_ext_iff_of_nodup h.nodup g.nodup_ids]
    exact fun id => (h.mem_iff id).trans Graph.mem_ids.symm
  rw [← (hperm.filter g.producesValue).length_eq, ← map_idxOf_eq_range (h.nodup.filter _)]
  rfl

/-! ## The registers that are read -/

/-- The edges whose values the finished instruction of a node reads, in the order in
    which it reads them.  A branch that ends its block only decides on its condition. -/
def readEdges (g : Graph) (c : Chain) (id : NodeId) : List Edge :=
  if g.op id = .branch ∧ c.nodes.getLast? = some id then g.inputsWhere id (· = .condition)
  else emittedEdges g id

/-- They are edges into the node, and bring it values. -/
theorem mem_inputs_of_mem_readEdges {g : Graph} {c : Chain} {id : NodeId} {e : Edge} (h : e ∈ readEdges g c id) :
    e ∈ g.inputs id ∧ e.role.isValue = true := by
  unfold readEdges at h
  split at h
  · obtain ⟨he, hrole⟩ := mem_inputsWhere.1 h
    exact ⟨he, by rw [hrole]; rfl⟩
  · exact isValue_of_mem_emittedEdges h

/-- The registers of an instruction are those of the sources of the edges it reads. -/
theorem StandsFor.loads {g : Graph} {layout : Layout} {c : Chain} {id : NodeId} {x : Instr}
    (h : StandsFor g layout c id x) : Loads g (readEdges g c id) (registersRead x) := by
  cases h with
  | emitted hemits hplace =>
      rw [readEdges, if_neg fun hends => hplace hends.1 hends.2]
      exact hemits.loads
  | decides hop hlast hname hcondition hregister =>
      rw [readEdges, if_pos ⟨hop, hlast⟩, registersRead_conditional]
      exact loads_soleInput hcondition hregister

/-- A register that the instruction of a node reads is linked to the edge it stands for:
    the instruction of the source of the edge writes the register, and no other does. -/
structure Linked (g out : Graph) (chains : List Chain) (blocks : List Block) (id : NodeId) (e : Edge)
    (r : Register) : Prop where
  input : e ∈ g.inputs id ∧ e.role.isValue = true
  written : ∃ c x, chains[(place g chains e.source).1]? = some c ∧ e.source ∈ c.nodes ∧
    instrAt blocks (place g chains e.source) = some x ∧ ListedAs g out c e.source x ∧ x.dest = r
  once : ∀ spot x, instrAt blocks spot = some x → x.dest = r → spot = place g chains e.source

namespace Laid

variable {g out : Graph} {chains : List Chain} {layout : Layout} {blocks : List Block}
  (h : Laid g out chains layout blocks)
include h

/-- Numbering the values does not change what an instruction reads. -/
theorem readEdges_eq (c : Chain) (id : NodeId) : readEdges out c id = readEdges g c id := by
  have hagree := h.agree
  rw [h.out_eq] at hagree ⊢
  unfold readEdges
  rw [hagree.op, emittedEdges_assignRegisters, hagree.inputsWhere_of_le fun _ _ => rfl]

variable (hfresh : ∀ id, (g.props id).has Props.register = false)
include hfresh

theorem numbered : FreshlyNumbered g out chains where
  nodup := h.covers.nodup
  live := fun id => (h.covers.mem_iff id).1
  fresh := hfresh
  out_eq := h.out_eq

variable (hsize : g.arena.size < 2 ^ 63)
include hsize

/-! ## The registers that are written -/

/-- What the instruction of a node writes: the number of the node if it is a value. -/
theorem writes_of_standsFor {c : Chain} {id : NodeId} {x : Instr} (hx : StandsFor out layout c id x) :
    writes x = if g.producesValue id = true then [Int64.ofNat (valueNumber g chains id)] else [] := by
  have hnumbered := h.numbered hfresh
  have hlisted := hx.listedAs h.agree
  split
  case isTrue hvalue =>
    have hdest := hlisted.writes hvalue
    rw [writes, if_neg (hnumbered.registerOf_ne_noRegister hsize hdest), (hnumbered.registerOf_eq_ok.1 hdest).2]
  case isFalse hvalue =>
    rw [writes, if_pos (hlisted.silent (by simpa using hvalue))]

theorem flatMap_writes_nodes {c : Chain} {ids : List NodeId} {instrs : List Instr}
    (hstands : List.Forall₂ (StandsFor out layout c) ids instrs) : instrs.flatMap writes
      = (ids.filter g.producesValue).map fun id => Int64.ofNat (valueNumber g chains id) := by
  induction hstands with
  | nil => rfl
  | @cons id x ids instrs hx _ ih =>
      rw [List.flatMap_cons, h.writes_of_standsFor hfresh hsize hx, ih, List.filter_cons]
      split <;> simp

/-- A block writes the numbers of the values of its chain, in the order of the chain. -/
theorem flatMap_writes_block {c : Chain} {instrs jumps : List Instr} (hlists : Lists out layout c instrs jumps) :
    (instrs ++ jumps).flatMap writes
      = (c.nodes.filter g.producesValue).map fun id => Int64.ofNat (valueNumber g chains id) := by
  have hjumps : jumps.flatMap writes = [] :=
    List.flatMap_eq_nil_iff.2 fun x hx => if_pos (hlists.jumps x hx).dest_eq
  -- The nodes without an instruction, starts and merges, have no value to leave out.
  have hvalues : (c.nodes.filter (emits out)).filter g.producesValue = c.nodes.filter g.producesValue := by
    rw [emits_agree h.agree, List.filter_filter]
    refine List.filter_congr fun id _ => ?_
    rw [Bool.and_eq_left_iff_imp]
    exact emits_of_producesValue
  rw [List.flatMap_append, hjumps, List.append_nil, h.flatMap_writes_nodes hfresh hsize hlists.nodes, hvalues]

/-- The listing writes the numbers of the values of all chains, in their order. -/
theorem flatMap_writes : blocks.flatten.flatMap writes
    = ((chains.flatMap Chain.nodes).filter g.producesValue).map fun id =>
        Int64.ofNat (valueNumber g chains id) := by
  -- Blocks and chains correspond by their index, so it is enough to compare them one by one.
  have hblocks : blocks.map (List.flatMap writes) = chains.map fun c =>
      (c.nodes.filter g.producesValue).map fun id => Int64.ofNat (valueNumber g chains id) := by
    refine List.ext_getElem? fun i => ?_
    rw [List.getElem?_map, List.getElem?_map]
    cases hc : chains[i]? with
    | none =>
        have hnone : blocks[i]? = none := by
          rw [List.getElem?_eq_none_iff, h.length_eq]
          exact List.getElem?_eq_none_iff.1 hc
        rw [hnone]
        rfl
    | some c =>
        obtain ⟨instrs, jumps, hblock, hlists⟩ := h.block i c hc
        rw [hblock, Option.map_some, Option.map_some, h.flatMap_writes_block hfresh hsize hlists]
  have hjoin : blocks.flatten.flatMap writes = (blocks.map (List.flatMap writes)).flatten := by
    rw [List.flatMap_def, List.map_flatten, List.flatten_flatten, List.map_map]
    rfl
  rw [hjoin, hblocks, ← List.flatMap_def, List.filter_flatMap, List.map_flatMap]

/-- So it writes the registers from zero up, one for each live value. -/
theorem flatMap_writes_eq_range : (blocks.flatten.flatMap writes).map Int64.toInt
    = (List.range (g.ids.filter g.producesValue).length).map Nat.cast := by
  have hnumbered := h.numbered hfresh
  rw [h.flatMap_writes hfresh hsize, ← map_valueNumber h.covers, List.map_map, List.map_map]
  refine List.map_congr_left fun id hid => ?_
  obtain ⟨hmem, hvalue⟩ := List.mem_filter.1 hid
  exact Int64.toInt_ofNat_of_lt (hnumbered.valueNumber_lt hsize hmem hvalue)

/-- A register belongs to one instruction, that of the node with the register. -/
theorem place_of_dest {id : NodeId} {r : Register} (hr : registerOf out id = .ok r) {spot : Nat × Nat} {x : Instr}
    (hx : instrAt blocks spot = some x) (hdest : x.dest = r) : spot = place g chains id := by
  have hnumbered := h.numbered hfresh
  have hsome := hnumbered.registerOf_ne_noRegister hsize hr
  rcases h.exists_place_or_jump hx with ⟨other, c, -, -, hplace, -, -, hstands⟩ | hjump
  · -- The instruction is that of a node, which has the register, and registers are not shared.
    have hlisted := hstands.listedAs h.agree
    cases hvalue : g.producesValue other with
    | false => exact absurd (hdest.symm.trans (hlisted.silent hvalue)) hsome
    | true =>
        have hother := hlisted.writes hvalue
        rw [hdest] at hother
        rw [← hplace, hnumbered.registerOf_inj hsize hother hr]
  · exact absurd (hdest.symm.trans hjump.dest_eq) hsome

/-- What has a register is linked to whatever reads it. -/
theorem linked_of_registerOf {id : NodeId} {e : Edge} {r : Register}
    (hinput : e ∈ g.inputs id ∧ e.role.isValue = true) (hr : registerOf out e.source = .ok r) :
    Linked g out chains blocks id e r where
  input := hinput
  written := by
    obtain ⟨⟨hmem, hproduces⟩, -⟩ := (h.numbered hfresh).registerOf_eq_ok.1 hr
    obtain ⟨c, x, hc, hsource, hx, hstands⟩ :=
      h.instrAt_place ((h.covers.mem_iff _).1 hmem) (emits_of_producesValue hproduces)
    have hlisted := hstands.listedAs h.agree
    exact ⟨c, x, hc, hsource, hx, hlisted, Except.ok.inj ((hlisted.writes hproduces).symm.trans hr)⟩
  once := fun _ _ hx hdest => h.place_of_dest hfresh hsize hr hx hdest

/-- The instruction of a node reads the registers that its edges are linked to. -/
theorem linked_of_standsFor {c : Chain} {id : NodeId} {x : Instr} (hx : StandsFor out layout c id x) :
    List.Forall₂ (Linked g out chains blocks id) (readEdges g c id) (registersRead x) := by
  have hloads := hx.loads
  rw [h.readEdges_eq] at hloads
  exact forall₂_imp_of_mem hloads fun e he r hr =>
    h.linked_of_registerOf hfresh hsize (mem_inputs_of_mem_readEdges he) hr

end Laid

/-! ## The result -/

/-- Fresh numbering is dense and every register is written once.  Of a graph without
    registers the listing writes the registers from zero up, one for each live value, in
    the order it is read in.  Each of its instructions is a jump, which reads nothing, or
    that of a node, and then the registers that it reads are linked to the edges of the
    node one by one. -/
theorem linearize_dense_singleAssignment (g : Graph) (hg : g.Consistent) (hsize : g.arena.size < 2 ^ 63)
    (hfresh : ∀ id, (g.props id).has Props.register = false) (out : Graph) (blocks : List Block)
    (h : linearize g = .done out blocks) :
    (blocks.flatten.flatMap writes).map Int64.toInt
        = (List.range (g.ids.filter g.producesValue).length).map Nat.cast ∧
      ∃ chains layout, plan g = .ok (chains, layout) ∧ Covers g chains ∧
        ∀ spot x, instrAt blocks spot = some x → (IsJump x ∧ registersRead x = []) ∨
          ∃ id c, place g chains id = spot ∧ chains[spot.1]? = some c ∧ id ∈ c.nodes ∧ ListedAs g out c id x ∧
            List.Forall₂ (Linked g out chains blocks id) (readEdges g c id) (registersRead x) := by
  obtain ⟨chains, layout, hplan, hlaid⟩ := laid_of_linearize hg h
  refine ⟨hlaid.flatMap_writes_eq_range hfresh hsize, chains, layout, hplan, hlaid.covers, fun spot x hx => ?_⟩
  rcases hlaid.exists_place_or_jump hx with ⟨id, c, -, -, hplace, hc, hid, hstands⟩ | hjump
  · exact .inr ⟨id, c, hplace, hc, hid, hstands.listedAs hlaid.agree, hlaid.linked_of_standsFor hfresh hsize hstands⟩
  · exact .inl ⟨hjump, hjump.registersRead_eq⟩

/-- The diamond's four values are spread over its blocks, and the phi behind the arms reads
    the ones that they compute. -/
theorem linearize_diamond_singleAssignment :
    (Schedule.run .diamond).graph.Consistent ∧ (Schedule.run .diamond).graph.arena.size < 2 ^ 63 ∧
      (∀ id, ((Schedule.run .diamond).graph.props id).has Props.register = false) ∧
      ∃ out, linearize (Schedule.run .diamond).graph = .done out diamondBlocks ∧
        (diamondBlocks.flatten.flatMap writes).map Int64.toInt = [0, 1, 2, 3] ∧
        ∃ chains phi c, (Schedule.run .diamond).graph.op phi = .phi ∧
          List.Forall₂ (Linked (Schedule.run .diamond).graph out chains diamondBlocks phi)
            (readEdges (Schedule.run .diamond).graph c phi) [1, 2] := by
  have hlist := Outcome.eq_done linearize_diamond
  obtain ⟨hprogram, _, hscheduled⟩ := scheduled_of_run Graph.consistent_diamond run_diamond
  have hsize : (Schedule.run .diamond).graph.arena.size < 2 ^ 63 := by
    rw [hprogram.size]
    decide +kernel
  have hunset : ∀ id, (Graph.diamond.props id).has Props.register = false := by
    intro id
    by_cases hid : Graph.diamond.has id = true
    · have hall : ∀ id ∈ Graph.diamond.ids, (Graph.diamond.props id).has Props.register = false := by
        decide +kernel
      exact hall id (Graph.mem_ids.2 hid)
    · rw [Graph.props_eq_empty (by simpa using hid)]
      rfl
  have hfresh : ∀ id, ((Schedule.run .diamond).graph.props id).has Props.register = false := by
    intro id
    rw [Props.has, get?_props_run run_diamond (by decide)]
    exact hunset id
  have hcount : ((Schedule.run .diamond).graph.ids.filter (Schedule.run .diamond).graph.producesValue).length = 4 := by
    have hvalues : (Schedule.run .diamond).graph.producesValue = Graph.diamond.producesValue := by
      funext id
      rw [Graph.producesValue, hprogram.op, ← Graph.producesValue]
    rw [hprogram.ids, hvalues]
    decide +kernel
  obtain ⟨hdense, chains, _, -, -, hlinked⟩ := linearize_dense_singleAssignment (Schedule.run .diamond).graph
    hscheduled.consistent hsize hfresh _ _ hlist
  rw [hcount] at hdense
  refine ⟨hscheduled.consistent, hsize, hfresh, _, hlist, hdense, chains, ?_⟩
  rcases hlinked (3, 0) _ rfl with ⟨hjump, -⟩ | ⟨phi, c, -, -, -, hlisted, hreads⟩
  · exact absurd hjump.op_eq (by decide)
  · have hphi := hlisted.plain fun hop hlast => absurd (hlisted.ends hop hlast) (by decide)
    exact ⟨phi, c, opcode_eq_phi.1 hphi.symm, hreads⟩

end SeaOfNodes.Listing
