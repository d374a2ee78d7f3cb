/-
  SeaOfNodes.Proofs.Listing.Emission

  The instructions of a block.  Each node of a chain but starts and merges emits
  one instruction, whose operation, destination and operands are read off the
  node; a block that is not closed by a return or a branch ends with a jump to
  the merge that its chain ends at.
-/
import SeaOfNodes.Proofs.Listing.Blocks
import SeaOfNodes.Proofs.Listing.Control

namespace SeaOfNodes.Listing

open Schedule

/-! ## Operations -/

/-- The name of a reserved operation is no name of a listing. -/
theorem reserved_name_ne (offset : Fin 229) {text : String} (h : text.toList.head? ≠ some 'o') :
    (Op.reserved offset).name ≠ text := by
  rintro rfl
  simp [Op.name, String.toList_append] at h

/-- Only a finish returns. -/
theorem opcode_eq_return {op : Op} : opcode op = returnOp ↔ op = .finish := by
  constructor
  · intro h
    by_contra hne
    rw [opcode, if_neg hne] at h
    cases op with
    | reserved offset => exact reserved_name_ne offset (by decide) h
    | finish => exact hne rfl
    | _ => revert h; decide
  · rintro rfl
    rfl

/-- Only a branch branches. -/
theorem opcode_eq_branch {op : Op} : opcode op = branchOp ↔ op = .branch := by
  constructor
  · intro h
    cases op with
    | reserved offset => exact absurd h (reserved_name_ne offset (by decide))
    | branch => rfl
    | _ => revert h; decide
  · rintro rfl
    rfl

/-- The transfers that simplifying writes are no operations of a graph. -/
theorem opcode_notMem_transferOps (op : Op) : opcode op ∉ transferOps := by
  cases op with
  | reserved offset =>
      simp only [transferOps, List.mem_cons, List.not_mem_nil, or_false, not_or]
      exact ⟨reserved_name_ne offset (by decide), reserved_name_ne offset (by decide),
        reserved_name_ne offset (by decide)⟩
  | _ => decide

/-! ## Edges that have to be the only ones -/

theorem soleInput_eq_ok {g : Graph} {id source : NodeId} {role : Role} (h : soleInput g id role = .ok source) :
    ∃ e, g.inputsWhere id (· = role) = [e] ∧ e ∈ g.inputs id ∧ e.role = role ∧ e.source = source := by
  unfold soleInput at h
  split at h
  · rename_i e honly
    cases h
    have he : e ∈ g.inputsWhere id (· = role) := by
      rw [honly]
      exact List.mem_singleton_self e
    obtain ⟨he, hrole⟩ := List.mem_filter.1 he
    exact ⟨e, honly, he, of_decide_eq_true hrole, rfl⟩
  · cases h

theorem soleOutput_eq_ok {g : Graph} {id target : NodeId} {name : Role.Name}
    (h : soleOutput g id name = .ok target) : ∃ e ∈ g.outputs id, e.role.name = name ∧ e.target = target := by
  unfold soleOutput at h
  split at h
  · rename_i e honly
    cases h
    have he : e ∈ g.outputsNamed id name := by
      rw [honly]
      exact List.mem_singleton_self e
    obtain ⟨he, hrole⟩ := List.mem_filter.1 he
    exact ⟨e, he, of_decide_eq_true hrole, rfl⟩
  · cases h

/-! ## One node -/

/-- A node emits an instruction. -/
def Emits (g : Graph) (layout : Layout) (id : NodeId) (i : Instr) : Prop :=
  ∃ d, emitNode g id = .ok d ∧ layout.resolveDraft d = .ok i

theorem resolveDraft_eq_ok {layout : Layout} {d : Draft} {i : Instr} (h : layout.resolveDraft d = .ok i) :
    i.op = d.op ∧ i.dest = d.dest ∧ i.imms = d.imms ∧ i.args = d.args ∧
      List.Forall₂ (fun ref operand => layout.resolve ref = .ok operand) d.trailing i.trailing := by
  rw [Layout.resolveDraft] at h
  obtain ⟨trailing, htrailing, hi⟩ := bind_eq_ok.1 h
  cases hi
  exact ⟨rfl, rfl, rfl, rfl, mapM_eq_ok.1 htrailing⟩

/-- The draft of a node, part by part. -/
structure Drafted (g : Graph) (id : NodeId) (d : Draft) : Prop where
  op : d.op = opcode (g.op id)
  dest : destination g id = .ok d.dest
  imms : d.imms = immediates g id
  phi : g.op id = .phi → d.args = [] ∧ phiOperands g id = .ok d.trailing
  args : g.op id ≠ .phi → List.Forall₂ (fun e r => registerOf g e.source = .ok r) (operandEdges g id) d.args
  branch : g.op id = .branch → branchOperands g id = .ok d.trailing
  send : g.op id = .send → sendOperands g id = .ok d.trailing
  plain : g.op id ≠ .phi → g.op id ≠ .branch → g.op id ≠ .send → d.trailing = []

theorem emitNode_eq_ok {g : Graph} {id : NodeId} {d : Draft} (h : emitNode g id = .ok d) : Drafted g id d := by
  rw [emitNode] at h
  obtain ⟨dest, hdest, h⟩ := bind_eq_ok.1 h
  by_cases hphi : g.op id = .phi
  · simp only [if_pos hphi] at h
    obtain ⟨trailing, htrailing, hd⟩ := bind_eq_ok.1 h
    cases hd
    exact ⟨rfl, hdest, rfl, fun _ => ⟨rfl, htrailing⟩, fun hne => absurd hphi hne, fun hop => by simp [hphi] at hop,
      fun hop => by simp [hphi] at hop, fun hne => absurd hphi hne⟩
  simp only [if_neg hphi] at h
  obtain ⟨args, hargs, h⟩ := bind_eq_ok.1 h
  have hargs := mapM_eq_ok.1 hargs
  by_cases hbranch : g.op id = .branch
  · simp only [if_pos hbranch] at h
    obtain ⟨trailing, htrailing, hd⟩ := bind_eq_ok.1 h
    cases hd
    exact ⟨rfl, hdest, rfl, fun hop => absurd hop hphi, fun _ => hargs, fun _ => htrailing,
      fun hop => by simp [hbranch] at hop, fun _ hne => absurd hbranch hne⟩
  simp only [if_neg hbranch] at h
  by_cases hsend : g.op id = .send
  · simp only [if_pos hsend] at h
    obtain ⟨trailing, htrailing, hd⟩ := bind_eq_ok.1 h
    cases hd
    exact ⟨rfl, hdest, rfl, fun hop => absurd hop hphi, fun _ => hargs, fun hop => absurd hop hbranch,
      fun _ => htrailing, fun _ _ hne => absurd hsend hne⟩
  · simp only [if_neg hsend] at h
    cases h
    exact ⟨rfl, hdest, rfl, fun hop => absurd hop hphi, fun _ => hargs, fun hop => absurd hop hbranch,
      fun hop => absurd hop hsend, fun _ _ _ => rfl⟩

/-- What a branch decides by, and the two nodes that it decides between. -/
structure BranchWays (g : Graph) (id : NodeId) where
  condition : NodeId
  register : Register
  ifTrue : NodeId
  ifFalse : NodeId
  condition_eq : soleInput g id .condition = .ok condition
  register_eq : registerOf g condition = .ok register
  ifTrue_eq : soleOutput g id .ifTrue = .ok ifTrue
  ifFalse_eq : soleOutput g id .ifFalse = .ok ifFalse

/-- The blocks of a layout that these nodes begin. -/
structure BranchBlocks (g : Graph) (layout : Layout) (id : NodeId) extends BranchWays g id where
  onTrue : Nat
  onFalse : Nat
  onTrue_eq : layout.index.lookup ifTrue = some onTrue
  onFalse_eq : layout.index.lookup ifFalse = some onFalse

/-- The operands of a branch are its condition and its targets. -/
theorem branchOperands_eq_ok {g : Graph} {id : NodeId} {refs : List Ref} (h : branchOperands g id = .ok refs) :
    ∃ ways : BranchWays g id, refs = [.register ways.register, .entry ways.ifTrue, .entry ways.ifFalse] := by
  rw [branchOperands] at h
  obtain ⟨condition, hcondition, h⟩ := bind_eq_ok.1 h
  obtain ⟨register, hregister, h⟩ := bind_eq_ok.1 h
  obtain ⟨ifTrue, htrue, h⟩ := bind_eq_ok.1 h
  obtain ⟨ifFalse, hfalse, h⟩ := bind_eq_ok.1 h
  cases h
  exact ⟨⟨condition, register, ifTrue, ifFalse, hcondition, hregister, htrue, hfalse⟩, rfl⟩

theorem blockOf_eq_ok {layout : Layout} {node : NodeId} {operand : Operand}
    (h : layout.blockOf node = .ok operand) :
    ∃ index, layout.index.lookup node = some index ∧ operand = .ofBlock (Int64.ofNat index) := by
  rw [Layout.blockOf] at h
  cases hlookup : layout.index.lookup node with
  | none => simp [hlookup] at h
  | some index =>
      simp only [hlookup, Except.ok.injEq] at h
      exact ⟨index, rfl, h.symm⟩

/-- An operand that is a block is one of the layout. -/
theorem resolve_kind {layout : Layout} {ref : Ref} {operand : Operand} (h : layout.resolve ref = .ok operand)
    (hkind : operand.kind = 2) :
    ∃ node index, layout.index.lookup node = some index ∧ operand = .ofBlock (Int64.ofNat index) := by
  cases ref with
  | register r =>
      cases h
      simp [Operand.ofRegister] at hkind
  | selector name =>
      cases h
      simp [Operand.ofSelector] at hkind
  | entry node => exact ⟨node, blockOf_eq_ok h⟩
  | incoming merge n =>
      rw [Layout.resolve] at h
      split at h
      · exact ⟨_, blockOf_eq_ok h⟩
      · cases h

namespace Emits

variable {g : Graph} {layout : Layout} {id : NodeId} {i : Instr} (h : Emits g layout id i)
include h

theorem op_eq : i.op = opcode (g.op id) := by
  obtain ⟨d, hd, hi⟩ := h
  rw [(resolveDraft_eq_ok hi).1, (emitNode_eq_ok hd).op]

theorem destination_eq : destination g id = .ok i.dest := by
  obtain ⟨d, hd, hi⟩ := h
  rw [(resolveDraft_eq_ok hi).2.1]
  exact (emitNode_eq_ok hd).dest

/-- The immediates of a node's instruction are the constants of the node. -/
theorem imms_eq : i.imms = immediates g id := by
  obtain ⟨d, hd, hi⟩ := h
  obtain ⟨-, -, himms, -, -⟩ := resolveDraft_eq_ok hi
  rw [himms, (emitNode_eq_ok hd).imms]

/-- Of the nodes only finishes and branches do something with control. -/
theorem transfer_next (hfinish : g.op id ≠ .finish) (hbranch : g.op id ≠ .branch) :
    transfer i = .next := by
  have hop := h.op_eq
  have hreturn : i.op ≠ returnOp := by rwa [hop, ne_eq, opcode_eq_return]
  have hnotBranch : i.op ≠ branchOp := by rwa [hop, ne_eq, opcode_eq_branch]
  have hothers : i.op ∉ transferOps := by
    rw [hop]
    exact opcode_notMem_transferOps (g.op id)
  simp only [transferOps, List.mem_cons, List.not_mem_nil, or_false, not_or] at hothers
  simp [transfer, hreturn, hnotBranch, hothers]

theorem transfer_stop (hfinish : g.op id = .finish) : transfer i = .stop := by
  have hop := h.op_eq
  rw [hfinish] at hop
  simp [transfer, hop, opcode]

/-- The operands of a branch are the register of its condition and the blocks of
    its targets. -/
theorem trailing_branch (hbranch : g.op id = .branch) :
    ∃ ways : BranchBlocks g layout id, i.trailing = [.ofRegister ways.register,
      .ofBlock (Int64.ofNat ways.onTrue), .ofBlock (Int64.ofNat ways.onFalse)] := by
  obtain ⟨d, hd, hi⟩ := h
  obtain ⟨ways, hrefs⟩ := branchOperands_eq_ok ((emitNode_eq_ok hd).branch hbranch)
  obtain ⟨-, -, -, -, htrailing⟩ := resolveDraft_eq_ok hi
  rw [hrefs] at htrailing
  match hlist : i.trailing, htrailing with
  | [c, t, f], .cons hc (.cons ht (.cons hf .nil)) =>
      obtain ⟨onTrue, honTrue, rfl⟩ := blockOf_eq_ok ht
      obtain ⟨onFalse, honFalse, rfl⟩ := blockOf_eq_ok hf
      cases hc
      exact ⟨⟨ways, onTrue, onFalse, honTrue, honFalse⟩, rfl⟩

/-- A branch goes to the blocks of its targets, as its condition says. -/
theorem transfer_branch (hbranch : g.op id = .branch) :
    ∃ ways : BranchBlocks g layout id, transfer i
      = .branch ways.register (some (Int64.ofNat ways.onTrue)) (some (Int64.ofNat ways.onFalse)) := by
  have hop : i.op = branchOp := by rw [h.op_eq, hbranch]; rfl
  obtain ⟨ways, htrailing⟩ := h.trailing_branch hbranch
  exact ⟨ways, transfer_of_branch hop htrailing⟩

/-- A block among the operands of a node is one of the layout. -/
theorem block_of_mem_trailing {operand : Operand} (hmem : operand ∈ i.trailing)
    (hkind : operand.kind = 2) :
    ∃ node index, layout.index.lookup node = some index ∧ operand = .ofBlock (Int64.ofNat index) := by
  obtain ⟨d, -, hi⟩ := h
  obtain ⟨-, -, -, -, htrailing⟩ := resolveDraft_eq_ok hi
  obtain ⟨ref, -, href⟩ := forall₂_mem_right htrailing hmem
  exact resolve_kind href hkind

end Emits

/-! ## One chain -/

/-- The instructions of a chain before their endings are simplified. -/
structure EmittedBlock (g : Graph) (layout : Layout) (c : Chain) (body raw : List Instr) : Prop where
  /-- One instruction for each node that emits one. -/
  nodes : List.Forall₂ (Emits g layout) (c.nodes.filter (emits g)) body
  /-- The block is closed by its last instruction, or by a jump. -/
  ending : (raw = body ∧ ∃ last, body.getLast? = some last ∧ (last.op = returnOp ∨ last.op = branchOp)) ∨
    ((∀ last, body.getLast? = some last → last.op ≠ returnOp ∧ last.op ≠ branchOp) ∧
      ∃ merge index, c.merge? = some merge ∧ layout.index.lookup merge = some index ∧
        raw = body ++ [jumpTo (.ofBlock (Int64.ofNat index))])

/-- An instruction of a block is emitted by a node of its chain, or the jump into
    the merge. -/
theorem EmittedBlock.of_mem {g : Graph} {layout : Layout} {c : Chain} {body raw : List Instr}
    (h : EmittedBlock g layout c body raw) {x : Instr} (hx : x ∈ raw) :
    (∃ id ∈ c.nodes, Emits g layout id x) ∨
      ∃ merge index, layout.index.lookup merge = some index ∧
        x = jumpTo (.ofBlock (Int64.ofNat index)) := by
  have hbody : ∀ y ∈ body, ∃ id ∈ c.nodes, Emits g layout id y := by
    intro y hy
    obtain ⟨id, hid, hemit⟩ := forall₂_mem_right h.nodes hy
    exact ⟨id, List.mem_of_mem_filter hid, hemit⟩
  rcases h.ending with ⟨rfl, -⟩ | ⟨-, merge, index, -, hindex, rfl⟩
  · exact .inl (hbody x hx)
  · rcases List.mem_append.1 hx with hx | hx
    · exact .inl (hbody x hx)
    · exact .inr ⟨merge, index, hindex, List.mem_singleton.1 hx⟩

/-- Whether the last of the drafts of nodes closes the block can be seen at its
    instruction. -/
theorem closes_iff {layout : Layout} {body : List Draft} {instrs : List Instr}
    (h : List.Forall₂ (fun d i => layout.resolveDraft d = .ok i) body instrs) :
    (body.getLast?.map closesBlock).getD false = true ↔
      ∃ last, instrs.getLast? = some last ∧ (last.op = returnOp ∨ last.op = branchOp) := by
  have hlast := forall₂_getLast? h
  cases hd : body.getLast? with
  | none =>
      rw [hd] at hlast
      cases hi : instrs.getLast? with
      | none => simp
      | some i => rw [hi] at hlast; cases hlast
  | some d =>
      rw [hd] at hlast
      cases hi : instrs.getLast? with
      | none => rw [hi] at hlast; cases hlast
      | some i =>
          rw [hi] at hlast
          cases hlast with
          | some hdi => simp [closesBlock, (resolveDraft_eq_ok hdi).1]

theorem resolveDraft_jump {layout : Layout} {merge : NodeId} {i : Instr}
    (h : layout.resolveDraft ⟨jumpOp, noRegister, [], [], [.entry merge]⟩ = .ok i) :
    ∃ index, layout.index.lookup merge = some index ∧ i = jumpTo (.ofBlock (Int64.ofNat index)) := by
  rw [Layout.resolveDraft] at h
  obtain ⟨trailing, htrailing, hi⟩ := bind_eq_ok.1 h
  rw [mapM_eq_ok] at htrailing
  cases hi
  match trailing, htrailing with
  | [target], .cons htarget .nil =>
      obtain ⟨index, hindex, rfl⟩ := blockOf_eq_ok htarget
      exact ⟨index, hindex, rfl⟩

theorem emittedBlock_of_emitChain {g : Graph} {layout : Layout} {c : Chain} {drafts : List Draft}
    {raw : List Instr} (hchain : emitChain g c = .ok drafts)
    (hraw : List.Forall₂ (fun d i => layout.resolveDraft d = .ok i) drafts raw) :
    ∃ body, EmittedBlock g layout c body raw := by
  rw [emitChain] at hchain
  obtain ⟨body, hbody, hchain⟩ := bind_eq_ok.1 hchain
  rw [mapM_eq_ok] at hbody
  by_cases hclose : (body.getLast?.map closesBlock).getD false = true
  · simp only [if_pos hclose] at hchain
    cases hchain
    exact ⟨raw, forall₂_comp hbody hraw, .inl ⟨rfl, (closes_iff hraw).1 hclose⟩⟩
  · simp only [if_neg hclose] at hchain
    cases hmerge : c.merge? with
    | none => simp [hmerge, throw, throwThe, MonadExceptOf.throw] at hchain
    | some merge =>
        simp only [hmerge, pure_eq_ok] at hchain
        subst hchain
        obtain ⟨instrs, jump, rfl, hinstrs, hjump⟩ := forall₂_append_left hraw
        obtain ⟨i, others, hi, hothers, rfl⟩ := List.forall₂_cons_left_iff.1 hjump
        obtain rfl := List.forall₂_nil_left_iff.1 hothers
        obtain ⟨index, hindex, rfl⟩ := resolveDraft_jump hi
        refine ⟨instrs, forall₂_comp hbody hinstrs, .inr ⟨fun last hlast => ?_, ?_⟩⟩
        · rw [← not_or]
          exact fun hop => hclose ((closes_iff hinstrs).2 ⟨last, hlast, hop⟩)
        · exact ⟨merge, index, hmerge, hindex, rfl⟩

/-! ## The whole listing -/

theorem emitBlocks_eq_ok {g : Graph} {chains : List Chain} {layout : Layout} {blocks : List Block}
    (h : emitBlocks g chains layout = .ok blocks) :
    ∃ raws, blocks = simplify raws ∧
      List.Forall₂ (fun c raw => ∃ body, EmittedBlock g layout c body raw) chains raws := by
  rw [emitBlocks] at h
  obtain ⟨drafts, hdrafts, h⟩ := bind_eq_ok.1 h
  obtain ⟨raws, hraws, h⟩ := bind_eq_ok.1 h
  cases h
  rw [mapM_eq_ok] at hdrafts hraws
  refine ⟨raws, rfl, (forall₂_comp hdrafts hraws).imp ?_⟩
  rintro c raw ⟨drafts, hchain, hraw⟩
  exact emittedBlock_of_emitChain hchain (mapM_eq_ok.1 hraw)

/-- A listing is emitted from a plan, once the values are numbered. -/
theorem linearize_eq_done {g out : Graph} {blocks : List Block} (h : linearize g = .done out blocks) :
    ∃ chains layout, plan g = .ok (chains, layout) ∧ out = assignRegisters g chains ∧
      emitBlocks out chains layout = .ok blocks := by
  rw [linearize] at h
  cases hplan : plan g with
  | error cause => simp [hplan, Outcome.failed, Outcome.done] at h
  | ok planned =>
      obtain ⟨chains, layout⟩ := planned
      simp only [hplan, Outcome.done, Outcome.mk.injEq] at h
      obtain ⟨rfl, hemit⟩ := h
      exact ⟨chains, layout, rfl, rfl, hemit⟩

end SeaOfNodes.Listing
