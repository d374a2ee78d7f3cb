/-
  SeaOfNodes.Proofs.Listing.ControlFlow

  Control in the listing of a scheduled graph is control in the graph: a block is
  left as the chain it was made from says, to the blocks that the targets begin.
-/
import SeaOfNodes.Proofs.Listing.Listed

namespace SeaOfNodes.Listing

open Schedule

/-! ## How blocks are left -/

/-- A block is left as its chain says: it returns if there is a finish, else goes
    where a branch says, else into the merge that the chain ends at. -/
structure LeftAs (s out : Graph) (firsts : List NodeId) (c : Chain) (i : Nat) (block : Block) : Prop where
  finish : ∀ id ∈ c.nodes, s.op id = .finish → ∃ x ∈ block, x.op = returnOp
  branch : (∀ id ∈ c.nodes, s.op id ≠ .finish) → ∀ b ∈ c.nodes, s.op b = .branch →
    ∃ condition register ifTrue ifFalse, soleInput s b .condition = .ok condition ∧
      registerOf out condition = .ok register ∧ soleOutput s b .ifTrue = .ok ifTrue ∧
      soleOutput s b .ifFalse = .ok ifFalse ∧ ∃ onTrue onFalse : Nat, firsts[onTrue]? = some ifTrue ∧
      firsts[onFalse]? = some ifFalse ∧
      ∀ truth, leave truth (i + 1) block = .to (if truth register = true then onTrue else onFalse)
  merge : (∀ id ∈ c.nodes, s.op id ≠ .finish) → (∀ id ∈ c.nodes, s.op id ≠ .branch) →
    ∃ merge, c.merge? = some merge ∧ ∃ index : Nat, firsts[index]? = some merge ∧
      ∀ truth, leave truth (i + 1) block = .to index

/-- Where a finish is in the chain nothing is asked of the block but a return. -/
theorem LeftAs.of_finish {s out : Graph} {firsts : List NodeId} {c : Chain} {i : Nat} {block : Block} {id : NodeId}
    (hid : id ∈ c.nodes) (hop : s.op id = .finish) {x : Instr} (hx : x ∈ block) (hreturn : x.op = returnOp) :
    LeftAs s out firsts c i block where
  finish := fun _ _ _ => ⟨x, hx, hreturn⟩
  branch := fun hnone => absurd hop (hnone id hid)
  merge := fun hnone => absurd hop (hnone id hid)

/-- A block without finishes and branches is left for the merge. -/
theorem LeftAs.of_plain {s out : Graph} {firsts : List NodeId} {c : Chain} {i : Nat} {block : Block}
    (hplain : ∀ y ∈ c.nodes, IsPlain s y) {merge : NodeId} (hmerge : c.merge? = some merge) {index : Nat}
    (hindex : firsts[index]? = some merge) (hleave : ∀ truth, leave truth (i + 1) block = .to index) :
    LeftAs s out firsts c i block where
  finish := fun y hy hop => absurd hop (hplain y hy).1
  branch := fun _ y hy hop => absurd hop (hplain y hy).2
  merge := fun _ _ => ⟨merge, hmerge, index, hindex, hleave⟩

namespace Listed

variable {s out : Graph} {order : NodeId → List NodeId} {chains : List Chain} {layout : Layout}
  {blocks : List Block} (h : Listed s order out chains layout blocks) (hsize : s.arena.size < 2 ^ 63)
include h hsize

/-- A block whose chain ends with a branch goes where the branch says. -/
theorem leftAs_of_branch {i : Nat} {c : Chain} {block raw : Block} {before : List NodeId} {id : NodeId}
    {plain : List Instr} {x : Instr} (hleave : ∀ truth, leave truth (i + 1) block = leave truth (i + 1) raw)
    (hraw : raw = plain ++ [x]) (hnodes : c.nodes = before ++ [id]) (hplain : ∀ y ∈ before, IsPlain out y)
    (hop : out.op id = .branch) (hbefore : List.Forall₂ (Emits out layout) (before.filter (emits out)) plain)
    (hx : Emits out layout id x) : LeftAs s out (chains.map Chain.first) c i block := by
  obtain ⟨ways, htransfer⟩ := hx.transfer_branch hop
  have hcondition := (soleInput_agree h.agree _ rfl).symm.trans ways.condition_eq
  have htrue := (soleOutput_agree h.agree _ fun _ _ => rfl).symm.trans ways.ifTrue_eq
  have hfalse := (soleOutput_agree h.agree _ fun _ _ => rfl).symm.trans ways.ifFalse_eq
  rw [isPlain_agree h.agree] at hplain
  rw [h.agree.op] at hop
  have hcases : ∀ y ∈ c.nodes, IsPlain s y ∨ y = id := fun y hy => by
    rw [hnodes, List.mem_append, List.mem_singleton] at hy
    exact hy.imp_left (hplain y)
  refine ⟨fun y hy hfinish => ?_, fun _ y hy hbranch => ?_, fun _ hnone => ?_⟩
  · rcases hcases y hy with hy | rfl
    · exact absurd hfinish hy.1
    · rw [hop] at hfinish
      cases hfinish
  · obtain rfl := (hcases y hy).resolve_left fun hy => hy.2 hbranch
    refine ⟨_, _, _, _, hcondition, ways.register_eq, htrue, hfalse, _, _, h.getElem?_firsts ways.onTrue_eq,
      h.getElem?_firsts ways.onFalse_eq, fun truth => ?_⟩
    have hnext := transfer_of_plain hbefore (by rwa [isPlain_agree h.agree])
    rw [hleave, hraw, leave_append hnext, leave_cons_branch htransfer, h.toInt_index hsize ways.onTrue_eq,
      h.toInt_index hsize ways.onFalse_eq]
  · exact absurd hop (hnone id (by rw [hnodes]; simp))

theorem leftAs {i : Nat} {c : Chain} (hc : chains[i]? = some c) {block : Block}
    (hblock : blocks[i]? = some block) : LeftAs s out (chains.map Chain.first) c i block := by
  obtain ⟨_, raw, -, hshape, hraw⟩ := h.block i c hc
  rw [hblock, Option.some.injEq] at hraw
  obtain ⟨hi, -⟩ := List.getElem?_eq_some_iff.1 hblock
  have hleave : ∀ truth, leave truth (i + 1) block = leave truth (i + 1) raw := fun truth => by
    rw [hraw]
    exact h.leave_eq hsize hi truth raw
  cases hshape with
  | @returns before after id plain rest x hnodes hop hplain hbefore hx =>
      have hreturn : x.op = returnOp := by rw [hx.op_eq, hop]; rfl
      have hmem : x ∈ block := by
        rw [hraw]
        refine mem_simplifyBlock_of_mem (by simp) ?_ ?_ <;> rw [hreturn] <;> decide
      exact .of_finish (by rw [hnodes]; simp) ((h.agree.op id).symm.trans hop) hmem hreturn
  | branches hnodes hop _ hplain hbefore hx =>
      exact h.leftAs_of_branch hsize hleave rfl hnodes hplain hop hbefore hx
  | flows hplain hnodes hmerge hindex =>
      refine .of_plain (by rwa [isPlain_agree h.agree] at hplain) hmerge (h.getElem?_firsts hindex) fun truth => ?_
      rw [hleave, leave_append (transfer_of_plain hnodes hplain), leave_cons_jump (transfer_jumpTo _),
        Operand.ofBlock, h.toInt_index hsize hindex]

/-- Control goes from block to block. -/
theorem leave_lt {i : Nat} {block : Block} (hblock : blocks[i]? = some block) {truth : Register → Bool}
    {target : Int} (hleave : leave truth (i + 1) block = .to target) :
    ∃ index : Nat, target = index ∧ index < blocks.length := by
  obtain ⟨_, _, raw, -, -, hshape, rfl⟩ := h.exists_chain hblock
  obtain ⟨hi, -⟩ := List.getElem?_eq_some_iff.1 hblock
  rw [h.leave_eq hsize hi] at hleave
  cases hshape with
  | returns hnodes hfinish hplain hbefore hx =>
      rw [leave_append (transfer_of_plain hbefore hplain), leave_cons_stop (hx.transfer_stop hfinish)] at hleave
      cases hleave
  | branches hnodes hbranch hmerge hplain hbefore hx =>
      obtain ⟨ways, htransfer⟩ := hx.transfer_branch hbranch
      rw [leave_append (transfer_of_plain hbefore hplain), leave_cons_branch htransfer,
        h.toInt_index hsize ways.onTrue_eq, h.toInt_index hsize ways.onFalse_eq, Exit.to.injEq] at hleave
      subst hleave
      split
      · exact ⟨_, rfl, h.index_lt ways.onTrue_eq⟩
      · exact ⟨_, rfl, h.index_lt ways.onFalse_eq⟩
  | @flows merge index plain hplain hnodes hmerge hindex =>
      rw [leave_append (transfer_of_plain hnodes hplain), leave_cons_jump (transfer_jumpTo _), Operand.ofBlock,
        h.toInt_index hsize hindex, Exit.to.injEq] at hleave
      exact ⟨index, hleave.symm, h.index_lt hindex⟩

/-- A block operand of the listing is the index of a block. -/
theorem operand_lt {block : Block} (hblock : block ∈ blocks) {x : Instr} (hx : x ∈ block) {operand : Operand}
    (hoperand : operand ∈ x.trailing) (hkind : operand.kind = 2) :
    ∃ index : Nat, operand.block.toInt = index ∧ index < blocks.length := by
  obtain ⟨i, hi⟩ := List.mem_iff_getElem?.1 hblock
  obtain ⟨c, body, raw, -, hbody, -, rfl⟩ := h.exists_chain hi
  have hraw : ∃ y ∈ raw, operand ∈ y.trailing := by
    rcases mem_simplifyBlock hx with hmem | ⟨-, -, -, last, hmem, hsub⟩
    · exact ⟨x, hmem, hoperand⟩
    · exact ⟨last, hmem, hsub hoperand⟩
  obtain ⟨y, hy, hoperand⟩ := hraw
  have hblockOf : ∃ node index, layout.index.lookup node = some index ∧
      operand = .ofBlock (Int64.ofNat index) := by
    rcases hbody.of_mem hy with ⟨id, -, hemit⟩ | ⟨merge, index, hindex, rfl⟩
    · exact hemit.block_of_mem_trailing hoperand hkind
    · exact ⟨merge, index, hindex, List.mem_singleton.1 hoperand⟩
  obtain ⟨node, index, hindex, rfl⟩ := hblockOf
  exact ⟨index, h.toInt_index hsize hindex, h.index_lt hindex⟩

end Listed

/-- A block contains a return exactly if its chain has a finish. -/
theorem Listed.returns_iff {s out : Graph} {order : NodeId → List NodeId} {chains : List Chain}
    {layout : Layout} {blocks : List Block} (h : Listed s order out chains layout blocks)
    (hsize : s.arena.size < 2 ^ 63) {i : Nat} {c : Chain} (hc : chains[i]? = some c) {block : Block}
    (hblock : blocks[i]? = some block) : (∃ x ∈ block, x.op = returnOp) ↔ c.returns = true := by
  rw [(h.planned.chainOf c (List.mem_of_getElem? hc)).returns, List.any_eq_true]
  constructor
  · rintro ⟨x, hx, hop⟩
    obtain ⟨c', body, raw, hc', hbody, -, rfl⟩ := h.exists_chain hblock
    rw [hc] at hc'
    cases hc'
    rcases mem_simplifyBlock hx with hmem | ⟨htransfer, -⟩
    · rcases hbody.of_mem hmem with ⟨id, hid, hemit⟩ | ⟨-, index, -, rfl⟩
      · rw [hemit.op_eq, opcode_eq_return, h.agree.op] at hop
        exact ⟨id, hid, by simpa using hop⟩
      · simp [jumpTo, jumpOp, returnOp] at hop
    · rw [hop] at htransfer
      exact absurd htransfer (by decide)
  · rintro ⟨id, hid, hop⟩
    exact (h.leftAs hsize hc hblock).finish id hid (by simpa using hop)

/-! ## The result -/

/-- The listing's control flow is the graph's.  The blocks correspond one to one
    to the nodes that begin a block, each is left as its chain says, every block
    operand and every way out is the index of a block, and blocks that return come
    after all others. -/
theorem linearize_control_flow (g : Graph) (hg : g.Consistent) (hsize : g.arena.size < 2 ^ 63)
    (hrun : (Schedule.run g).failure? = none) (out : Graph) (blocks : List Block)
    (hlist : linearize (Schedule.run g).graph = .done out blocks) :
    ∃ firsts : List NodeId, firsts.Nodup ∧ firsts.Perm (blockFirsts (Schedule.run g).graph) ∧
      blocks.length = firsts.length ∧
      (∀ (i : Nat) (first : NodeId), firsts[i]? = some first → ∃ c block,
        chainFrom (Schedule.run g).graph first = .ok c ∧ blocks[i]? = some block ∧
        LeftAs (Schedule.run g).graph out firsts c i block) ∧
      (∀ block ∈ blocks, ∀ x ∈ block, ∀ operand ∈ x.trailing, operand.kind = 2 →
        ∃ index : Nat, operand.block.toInt = index ∧ index < blocks.length) ∧
      (∀ (i : Nat) (block : Block), blocks[i]? = some block → ∀ truth target,
        leave truth (i + 1) block = .to target → ∃ index : Nat, target = index ∧ index < blocks.length) ∧
      ∀ (i j : Nat) (block other : Block), blocks[i]? = some block → blocks[j]? = some other →
        (∃ x ∈ block, x.op = returnOp) → (∀ x ∈ other, x.op ≠ returnOp) → j < i := by
  obtain ⟨hprogram, order, hs⟩ := scheduled_of_run hg hrun
  obtain ⟨chains, layout, -, h⟩ := listed_of_linearize hs hlist
  rw [← hprogram.size] at hsize
  refine ⟨chains.map Chain.first, h.planned.firsts.nodup_iff.2 (nodup_blockFirsts _), h.planned.firsts,
    by rw [h.length_eq, List.length_map], fun i first hfirst => ?_, fun block hblock x hx operand hoperand =>
      h.operand_lt hsize hblock hx hoperand, fun i block hblock truth target =>
      h.leave_lt hsize hblock, ?_⟩
  · obtain ⟨c, hc, rfl⟩ : ∃ c, chains[i]? = some c ∧ c.first = first := by
      simpa using hfirst
    obtain ⟨_, _, -, -, hblock⟩ := h.block i c hc
    exact ⟨c, _, h.planned.chainFrom_eq c (List.mem_of_getElem? hc), hblock, h.leftAs hsize hc hblock⟩
  · intro i j block other hi hj hreturns hother
    obtain ⟨c, _, _, hc, -⟩ := h.exists_chain hi
    obtain ⟨d, _, _, hd, -⟩ := h.exists_chain hj
    refine h.planned.returnsLast i j c d hc hd ((h.returns_iff hsize hc hi).1 hreturns) ?_
    by_contra hreturn
    obtain ⟨x, hx, hop⟩ := (h.returns_iff hsize hd hj).2 (by simpa using hreturn)
    exact hother x hx hop

/-- The listing of the diamond: the arm that runs when the argument holds follows
    the branch, and the other one falls through to the merge. -/
def diamondBlocks : List Block :=
  [[⟨"arg", 0, [], [], []⟩, conditional branchUnlessOp (.ofRegister 0) (.ofBlock 2)],
    [⟨"trace", noRegister, [], [], []⟩, ⟨"add", 1, [], [0, 0], []⟩, jumpTo (.ofBlock 3)],
    [⟨"trace", noRegister, [], [], []⟩, ⟨"self", 2, [], [], []⟩],
    [⟨"phi", 3, [], [], [.ofBlock 1, .ofRegister 1, .ofBlock 2, .ofRegister 2]⟩,
      ⟨returnOp, noRegister, [], [3], []⟩]]

theorem linearize_diamond : (linearize (Schedule.run .diamond).graph).result = .ok diamondBlocks := by cbv

/-- Each block of the diamond's listing is left as its chain says. -/
theorem linearize_diamond_control_flow :
    (Schedule.run .diamond).failure? = none ∧ ∃ out firsts,
      linearize (Schedule.run .diamond).graph = .done out diamondBlocks ∧ firsts.length = 4 ∧
      ∀ (i : Nat) (first : NodeId), firsts[i]? = some first → ∃ c block,
        chainFrom (Schedule.run .diamond).graph first = .ok c ∧ diamondBlocks[i]? = some block ∧
        LeftAs (Schedule.run .diamond).graph out firsts c i block := by
  have hlist := Outcome.eq_done linearize_diamond
  obtain ⟨firsts, -, -, hlength, hleft, -⟩ := linearize_control_flow .diamond Graph.consistent_diamond
    (by decide +kernel) run_diamond _ _ hlist
  exact ⟨run_diamond, _, firsts, hlist, hlength.symm, hleft⟩

end SeaOfNodes.Listing
