/-
  SeaOfNodes.Proofs.Listing.Endings

  Simplifying the endings of blocks.  A block is instructions that neither jump nor branch,
  and what it ends with.  Simplifying keeps the former and puts in the place of the latter
  transfers that leave the block for the same block, whichever way the condition goes; what
  it puts there it leaves alone from then on.  It may be nothing, where the target of a jump
  follows, and the block may then be empty.
-/
import SeaOfNodes.Proofs.Listing.Control
import Mathlib.Algebra.Group.Nat.Defs

namespace SeaOfNodes.Listing

/-! ## Blocks and their endings -/

/-- What a block may end with: nothing, a jump to a block, or a branch to one of two. -/
inductive Terminator : List Instr → Prop
  | falls : Terminator []
  | jumps {x : Instr} {target : Operand} (hop : x.op = jumpOp) (htrailing : x.trailing = [target]) :
      Terminator [x]
  | branches {x : Instr} {condition ifTrue ifFalse : Operand} (hop : x.op = branchOp)
      (htrailing : x.trailing = [condition, ifTrue, ifFalse]) : Terminator [x]

/-- The instructions neither jump nor branch. -/
def Straight (body : List Instr) : Prop := ∀ x ∈ body, x.op ≠ jumpOp ∧ x.op ≠ branchOp

/-- A block is such instructions and what it ends with. -/
structure Splits (block : Block) (body last : List Instr) : Prop where
  eq : block = body ++ last
  straight : Straight body
  terminator : Terminator last

/-- The endings that simplifying leaves alone: nothing, a jump to a block that does not follow, a
    conditional transfer, and one before such a jump. -/
inductive Settled (next : Int64) : List Instr → Prop
  | falls : Settled next []
  | jumps {x : Instr} {target : Operand} (hop : x.op = jumpOp) (htrailing : x.trailing = [target])
      (hnext : target.block ≠ next) : Settled next [x]
  | tests {op : String} {condition target : Operand} (hop : op = branchIfOp ∨ op = branchUnlessOp) :
      Settled next [conditional op condition target]
  | decides {condition ifTrue ifFalse : Operand} (hnext : ifFalse.block ≠ next) :
      Settled next [conditional branchIfOp condition ifTrue, jumpTo ifFalse]

theorem Straight.append_conditional {body : List Instr} (h : Straight body) {op : String} {condition target : Operand}
    (hop : op = branchIfOp ∨ op = branchUnlessOp) : Straight (body ++ [conditional op condition target]) := by
  intro x hx
  rcases List.mem_append.1 hx with hx | hx
  · exact h x hx
  · rw [List.mem_singleton.1 hx]
    show op ≠ jumpOp ∧ op ≠ branchOp
    rcases hop with rfl | rfl <;> decide

/-! ## A block -/

/-- A block without jumps and branches is left as it is. -/
theorem Straight.simplifyBlock_eq {body : List Instr} (h : Straight body) (next : Int64) :
    simplifyBlock next body = body := by
  rcases List.eq_nil_or_concat body with rfl | ⟨front, x, rfl⟩
  · rfl
  · obtain ⟨hjump, hbranch⟩ := h x (by simp)
    rw [List.concat_eq_append, simplifyBlock_concat, simplifyLast, if_neg hjump, if_neg hbranch]

/-- A terminator is replaced by a settled ending that leaves the block as it did. -/
theorem Splits.simplified {block : Block} {body last : List Instr} (h : Splits block body last) (next : Int64) :
    ∃ ending, simplifyBlock next block = body ++ ending ∧ Settled next ending ∧ (last = [] → ending = []) ∧
      ∀ truth, leave truth next.toInt ending = leave truth next.toInt last := by
  obtain ⟨rfl, hstraight, hlast⟩ := h
  cases hlast with
  | falls =>
      refine ⟨[], ?_, .falls, fun _ => rfl, fun _ => rfl⟩
      rw [List.append_nil]
      exact hstraight.simplifyBlock_eq next
  | @jumps x target hop htrailing =>
      refine ⟨simplifyLast next x, simplifyBlock_concat next body x, ?_, nofun, fun _ => leave_simplifyLast next x⟩
      rw [simplifyLast_jump hop htrailing]
      split
      · exact .falls
      · rename_i hnext
        exact .jumps hop htrailing hnext
  | @branches x condition ifTrue ifFalse hop htrailing =>
      refine ⟨simplifyLast next x, simplifyBlock_concat next body x, ?_, nofun, fun _ => leave_simplifyLast next x⟩
      rw [simplifyLast_branch hop htrailing]
      -- Where both targets follow, the true one is tested for nothing.
      split
      · exact .tests (.inl rfl)
      · rename_i hnext
        split
        · exact .tests (.inr rfl)
        · exact .decides hnext

namespace Settled

variable {next : Int64} {body ending : List Instr}

theorem mem_transferOps (h : Settled next ending) {x : Instr} (hx : x ∈ ending) : x.op ∈ transferOps := by
  cases h with
  | falls => cases hx
  | jumps hop =>
      rw [List.mem_singleton.1 hx, hop]
      decide
  | tests hop =>
      rw [List.mem_singleton.1 hx]
      rcases hop with rfl | rfl <;> simp [conditional, transferOps]
  | decides =>
      rcases List.mem_cons.1 hx with rfl | hx
      · simp [conditional, transferOps]
      · rw [List.mem_singleton.1 hx]
        simp [jumpTo, transferOps]

theorem simplifyBlock_eq (h : Settled next ending) (hbody : Straight body) :
    simplifyBlock next (body ++ ending) = body ++ ending := by
  cases h with
  | falls =>
      rw [List.append_nil]
      exact hbody.simplifyBlock_eq next
  | jumps hop htrailing hnext => rw [simplifyBlock_concat, simplifyLast_jump hop htrailing, if_neg hnext]
  | tests hop => exact (hbody.append_conditional hop).simplifyBlock_eq next
  | @decides condition ifTrue ifFalse hnext =>
      rw [List.append_cons, simplifyBlock_concat, simplifyLast_jumpTo, if_neg hnext]

end Settled

/-- A block that simplifying leaves alone does not end in a jump to the block that follows: it would
    have been dropped. -/
theorem target_ne_of_simplifyBlock_eq {next : Int64} {block : Block} (h : simplifyBlock next block = block)
    {x : Instr} (hx : block.getLast? = some x) {target : Int64} (hjump : transfer x = .jump target) :
    target ≠ next := by
  obtain ⟨hop, operand, more, htrailing, rfl⟩ := exists_target_of_transfer hjump
  rintro rfl
  rw [← List.dropLast_append_getLast? x hx, simplifyBlock_concat, simplifyLast_jump hop htrailing, if_pos rfl,
    List.append_cancel_left_eq] at h
  cases h

/-! ## A listing -/

/-- What simplifying makes of a block when `next` is the index of the block that follows. -/
structure Simplified (next : Nat) (block simplified : Block) : Prop where
  /-- It is left for the same block, or by a return, whatever the registers hold. -/
  leave_eq : ∀ truth, leave truth next simplified = leave truth next block
  /-- The instructions before its terminator are kept.  Only transfers follow, none where there was no
      terminator, and they do what the terminator did. -/
  body_kept : ∀ body last, Splits block body last → ∃ ending, simplified = body ++ ending ∧
    (∀ x ∈ ending, x.op ∈ transferOps) ∧ (last = [] → ending = []) ∧
    ∀ truth, leave truth next ending = leave truth next last
  target_ne : ∀ x target, simplified.getLast? = some x → transfer x = .jump target → target.toInt ≠ next
  op_ne : ∀ x ∈ simplified, x.op ≠ branchOp

theorem Splits.simplifyBlock_simplifyBlock {block : Block} {body last : List Instr} (h : Splits block body last)
    (next : Int64) : simplifyBlock next (simplifyBlock next block) = simplifyBlock next block := by
  obtain ⟨ending, heq, hsettled, -⟩ := h.simplified next
  rw [heq]
  exact hsettled.simplifyBlock_eq h.straight

theorem Splits.simplifyBlock_simplified {block : Block} {body last : List Instr} (h : Splits block body last)
    {next : Nat} (hnext : next < 2 ^ 63) : Simplified next block (simplifyBlock (Int64.ofNat next) block) := by
  have htoInt : (Int64.ofNat next).toInt = next := Int64.toInt_ofNat_of_lt hnext
  refine ⟨fun truth => ?_, fun body' last' h' => ?_, fun x target hx hjump heq => ?_, fun x hx => ?_⟩
  · rw [← htoInt]
    exact leave_simplifyBlock (Int64.ofNat next) block
  · obtain ⟨ending, heq, hsettled, hfalls, hleave⟩ := h'.simplified (Int64.ofNat next)
    rw [htoInt] at hleave
    exact ⟨ending, heq, fun x hx => hsettled.mem_transferOps hx, hfalls, hleave⟩
  · -- Simplifying would drop such a jump, but it changes nothing any more.
    refine target_ne_of_simplifyBlock_eq (h.simplifyBlock_simplifyBlock _) hx hjump (Int64.toInt_inj.1 ?_)
    rw [heq, htoInt]
  · obtain ⟨ending, heq, hsettled, -⟩ := h.simplified (Int64.ofNat next)
    rw [heq] at hx
    rcases List.mem_append.1 hx with hx | hx
    · exact (h.straight x hx).2
    · intro hop
      have hmem := hsettled.mem_transferOps hx
      rw [hop] at hmem
      exact absurd hmem (by decide)

/-- Of blocks that jump and branch at most at their ends, and are no more than machine integers
    number, simplifying makes as many, each simplified for its place.  Simplifying those again changes
    nothing. -/
theorem simplify_refines {blocks : List Block} (hsize : blocks.length < 2 ^ 63)
    (hsplits : ∀ block ∈ blocks, ∃ body last, Splits block body last) :
    (simplify blocks).length = blocks.length ∧
      (∀ (i : Nat) block, blocks[i]? = some block →
        ∃ simplified, (simplify blocks)[i]? = some simplified ∧ Simplified (i + 1) block simplified) ∧
      simplify (simplify blocks) = simplify blocks := by
  refine ⟨length_simplify blocks, fun i block hblock => ?_, List.ext_getElem? fun i => ?_⟩
  · obtain ⟨hi, -⟩ := List.getElem?_eq_some_iff.1 hblock
    have hnext : i + 1 < 2 ^ 63 := by omega
    obtain ⟨body, last, hsplit⟩ := hsplits block (List.mem_of_getElem? hblock)
    refine ⟨_, ?_, hsplit.simplifyBlock_simplified hnext⟩
    rw [getElem?_simplify, hblock, Option.map_some]
  · rw [getElem?_simplify, getElem?_simplify]
    cases hblock : blocks[i]? with
    | none => rfl
    | some block =>
        obtain ⟨body, last, hsplit⟩ := hsplits block (List.mem_of_getElem? hblock)
        rw [Option.map_some, Option.map_some, hsplit.simplifyBlock_simplifyBlock]

/-- The register that branches read. -/
def tested : Operand := .ofRegister 7

def branchInstr (ifTrue ifFalse : Int64) : Instr :=
  ⟨branchOp, noRegister, [], [], [tested, .ofBlock ifTrue, .ofBlock ifFalse]⟩

/-- A loop of one block, a jump to the block that follows, a branch to that block either way and one to
    two other blocks, before a return. -/
def circling : List Block :=
  [[⟨"arg", 7, [], [], []⟩, branchInstr 1 0], [jumpTo (.ofBlock 2)], [branchInstr 3 3], [branchInstr 0 1],
    [⟨returnOp, noRegister, [], [7], []⟩]]

/-- The jump goes and leaves an empty block; of the branches only that to two other blocks needs a jump. -/
theorem simplify_circling_refines :
    circling.length < 2 ^ 63 ∧ (∀ block ∈ circling, ∃ body last, Splits block body last) ∧
      simplify circling = [[⟨"arg", 7, [], [], []⟩, conditional branchUnlessOp tested (.ofBlock 0)], [],
        [conditional branchIfOp tested (.ofBlock 3)],
        [conditional branchIfOp tested (.ofBlock 0), jumpTo (.ofBlock 1)],
        [⟨returnOp, noRegister, [], [7], []⟩]] ∧
      Simplified 1 [⟨"arg", 7, [], [], []⟩, branchInstr 1 0]
        [⟨"arg", 7, [], [], []⟩, conditional branchUnlessOp tested (.ofBlock 0)] ∧
      simplify (simplify circling) = simplify circling := by
  have hsize : circling.length < 2 ^ 63 := by decide
  have hsplits : ∀ block ∈ circling, ∃ body last, Splits block body last := by
    intro block hblock
    simp only [circling, List.mem_cons, List.not_mem_nil, or_false] at hblock
    rcases hblock with rfl | rfl | rfl | rfl | rfl
    · exact ⟨[_], [_], rfl, by unfold Straight; decide, .branches rfl rfl⟩
    · exact ⟨[], [_], rfl, nofun, .jumps rfl rfl⟩
    · exact ⟨[], [_], rfl, nofun, .branches rfl rfl⟩
    · exact ⟨[], [_], rfl, nofun, .branches rfl rfl⟩
    · exact ⟨[_], [], rfl, by unfold Straight; decide, .falls⟩
  obtain ⟨-, hblocks, hagain⟩ := simplify_refines hsize hsplits
  obtain ⟨simplified, hsimplified, hfirst⟩ := hblocks 0 _ rfl
  have hall : simplify circling = [[⟨"arg", 7, [], [], []⟩, conditional branchUnlessOp tested (.ofBlock 0)], [],
      [conditional branchIfOp tested (.ofBlock 3)],
      [conditional branchIfOp tested (.ofBlock 0), jumpTo (.ofBlock 1)],
      [⟨returnOp, noRegister, [], [7], []⟩]] := by decide
  rw [hall] at hsimplified
  obtain rfl := Option.some.inj hsimplified
  exact ⟨hsize, hsplits, hall, hfirst, hagain⟩

end SeaOfNodes.Listing
