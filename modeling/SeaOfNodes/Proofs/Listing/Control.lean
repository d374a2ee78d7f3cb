/-
  SeaOfNodes.Proofs.Listing.Control

  Control in a listing.  A block is run from its first instruction on; it is left
  by a return, by a transfer to another block, or past its end to the block that
  follows.  Simplified endings leave a block as the endings they stand for do.
-/
import SeaOfNodes.Listing.Simplify
import Mathlib.Data.List.Basic

namespace SeaOfNodes.Listing

/-- What an instruction does with control. -/
inductive Transfer where
  /-- On to the following instruction. -/
  | next
  /-- Out of the method. -/
  | stop
  /-- To a block. -/
  | jump (target : Int64)
  /-- To a block, or on where there is none, as a register holds true or not. -/
  | branch (condition : Register) (ifTrue ifFalse : Option Int64)
deriving DecidableEq

/-- What an instruction of a finished listing does with control. -/
def transfer (i : Instr) : Transfer :=
  if i.op = returnOp then .stop
  else if i.op = jumpOp then
    match i.trailing with
    | target :: _ => .jump target.block
    | [] => .next
  else if i.op = branchIfOp then
    match i.trailing with
    | condition :: target :: _ => .branch condition.register (some target.block) none
    | _ => .next
  else if i.op = branchUnlessOp then
    match i.trailing with
    | condition :: target :: _ => .branch condition.register none (some target.block)
    | _ => .next
  else if i.op = branchOp then
    match i.trailing with
    | condition :: ifTrue :: ifFalse :: _ =>
      .branch condition.register (some ifTrue.block) (some ifFalse.block)
    | _ => .next
  else .next

/-- How control leaves a block. -/
inductive Exit where
  | returned
  | to (index : Int)
deriving DecidableEq

/-- How control leaves a block when `truth` tells which registers hold true and
    `next` is the index of the block that follows. -/
def leave (truth : Register → Bool) (next : Int) : Block → Exit
  | [] => .to next
  | i :: rest =>
    match transfer i with
    | .next => leave truth next rest
    | .stop => .returned
    | .jump target => .to target.toInt
    | .branch condition ifTrue ifFalse =>
      match if truth condition then ifTrue else ifFalse with
      | some target => .to target.toInt
      | none => leave truth next rest

section Leave

variable {truth : Register → Bool} {next : Int}

theorem leave_cons_stop {x : Instr} (hx : transfer x = .stop) (rest : Block) :
    leave truth next (x :: rest) = .returned := by rw [leave, hx]

theorem leave_cons_jump {x : Instr} {target : Int64} (hx : transfer x = .jump target) (rest : Block) :
    leave truth next (x :: rest) = .to target.toInt := by rw [leave, hx]

theorem leave_cons_branch {x : Instr} {condition : Register} {ifTrue ifFalse : Int64}
    (hx : transfer x = .branch condition (some ifTrue) (some ifFalse)) (rest : Block) :
    leave truth next (x :: rest)
      = .to (if truth condition = true then ifTrue.toInt else ifFalse.toInt) := by
  rw [leave, hx]
  cases hcase : truth condition <;> simp [hcase]

/-- Instructions that only go on do not decide how a block is left. -/
theorem leave_append {plain : List Instr} (h : ∀ i ∈ plain, transfer i = .next) (rest : Block) :
    leave truth next (plain ++ rest) = leave truth next rest := by
  induction plain with
  | nil => rfl
  | cons i plain ih =>
      rw [List.cons_append, leave, h i List.mem_cons_self]
      exact ih fun j hj => h j (List.mem_cons_of_mem i hj)

/-- A block is left as its beginning says, or as its rest does. -/
theorem leave_append_congr (plain : List Instr) {rest rest' : Block}
    (h : leave truth next rest = leave truth next rest') :
    leave truth next (plain ++ rest) = leave truth next (plain ++ rest') := by
  induction plain with
  | nil => exact h
  | cons i plain ih =>
      rw [List.cons_append, List.cons_append, leave, leave, ih]

theorem transfer_jumpTo (target : Operand) : transfer (jumpTo target) = .jump target.block := rfl

theorem transfer_branchIf (condition target : Operand) :
    transfer (conditional branchIfOp condition target)
      = .branch condition.register (some target.block) none := rfl

theorem transfer_branchUnless (condition target : Operand) :
    transfer (conditional branchUnlessOp condition target)
      = .branch condition.register none (some target.block) := rfl

theorem transfer_of_jump {i : Instr} {target : Operand} {more : List Operand} (hop : i.op = jumpOp)
    (htrailing : i.trailing = target :: more) : transfer i = .jump target.block := by
  simp [transfer, hop, htrailing, jumpOp, returnOp]

theorem exists_target_of_transfer {i : Instr} {target : Int64} (h : transfer i = .jump target) :
    i.op = jumpOp ∧ ∃ operand more, i.trailing = operand :: more ∧ operand.block = target := by
  unfold transfer at h
  split at h
  · cases h
  · split at h
    · rename_i hop
      split at h
      · rename_i operand more htrailing
        exact ⟨hop, operand, more, htrailing, Transfer.jump.inj h⟩
      · cases h
    · -- No other operation jumps.
      split at h
      · split at h <;> cases h
      · split at h
        · split at h <;> cases h
        · split at h
          · split at h <;> cases h
          · cases h

theorem transfer_of_branch {i : Instr} {condition ifTrue ifFalse : Operand} {more : List Operand}
    (hop : i.op = branchOp) (htrailing : i.trailing = condition :: ifTrue :: ifFalse :: more) :
    transfer i = .branch condition.register (some ifTrue.block) (some ifFalse.block) := by
  simp [transfer, hop, htrailing, branchOp, returnOp, jumpOp, branchIfOp, branchUnlessOp]

/-- The last instruction of a block and what stands for it leave the block
    alike. -/
theorem leave_simplifyLast (follows : Int64) (last : Instr) :
    leave truth follows.toInt (simplifyLast follows last) = leave truth follows.toInt [last] := by
  unfold simplifyLast
  split
  · rename_i hjump
    split
    · rename_i target more htrailing
      split
      · rename_i hnext
        simp [leave, transfer_of_jump hjump htrailing, hnext]
      · rfl
    · rfl
  · split
    · rename_i hbranch
      split
      · rename_i condition ifTrue ifFalse more htrailing
        have hlast := transfer_of_branch hbranch htrailing
        cases htruth : truth condition.register with
        | true =>
            split
            · simp [leave, hlast, transfer_branchIf, htruth]
            · split
              · rename_i hnext
                simp [leave, hlast, transfer_branchUnless, htruth, hnext]
              · simp [leave, hlast, transfer_branchIf, htruth]
        | false =>
            split
            · rename_i hnext
              simp [leave, hlast, transfer_branchIf, htruth, hnext]
            · split
              · simp [leave, hlast, transfer_branchUnless, htruth]
              · simp [leave, hlast, transfer_branchIf, transfer_jumpTo, htruth]
      · rfl
    · rfl

/-- Simplifying the ending of a block does not change how it is left. -/
theorem leave_simplifyBlock (follows : Int64) (block : Block) :
    leave truth follows.toInt (simplifyBlock follows block) = leave truth follows.toInt block := by
  unfold simplifyBlock
  cases hlast : block.getLast? with
  | none => rfl
  | some last =>
      have hsplit : block = block.dropLast ++ [last] :=
        (List.dropLast_append_getLast? last hlast).symm
      conv_rhs => rw [hsplit]
      exact leave_append_congr block.dropLast (leave_simplifyLast follows last)

end Leave

/-! ## Simplified listings -/

theorem simplifyLast_branch {follows : Int64} {x : Instr} {condition ifTrue ifFalse : Operand}
    (hop : x.op = branchOp) (htrailing : x.trailing = [condition, ifTrue, ifFalse]) :
    simplifyLast follows x = if ifFalse.block = follows then [conditional branchIfOp condition ifTrue]
      else if ifTrue.block = follows then [conditional branchUnlessOp condition ifFalse]
      else [conditional branchIfOp condition ifTrue, jumpTo ifFalse] := by
  have hjump : ¬ branchOp = jumpOp := by decide
  simp [simplifyLast, hop, htrailing, hjump]

theorem simplifyLast_jump {follows : Int64} {x : Instr} {target : Operand} {more : List Operand}
    (hop : x.op = jumpOp) (htrailing : x.trailing = target :: more) :
    simplifyLast follows x = if target.block = follows then [] else [x] := by
  rw [simplifyLast, if_pos hop, htrailing]

theorem simplifyLast_jumpTo (follows : Int64) (target : Operand) :
    simplifyLast follows (jumpTo target) = if target.block = follows then [] else [jumpTo target] :=
  simplifyLast_jump rfl rfl

theorem simplifyBlock_concat (follows : Int64) (plain : List Instr) (last : Instr) :
    simplifyBlock follows (plain ++ [last]) = plain ++ simplifyLast follows last := by
  simp [simplifyBlock]

theorem getElem?_simplifyFrom (index : Nat) (blocks : List Block) (i : Nat) :
    (simplifyFrom index blocks)[i]? = (blocks[i]?).map (simplifyBlock (Int64.ofNat (index + i + 1))) := by
  induction blocks generalizing index i with
  | nil => simp [simplifyFrom]
  | cons block rest ih =>
      cases i with
      | zero => rfl
      | succ i =>
          rw [simplifyFrom, List.getElem?_cons_succ, List.getElem?_cons_succ, ih]
          congr 3
          omega

/-- Every block of a simplified listing is the simplified block of that index. -/
theorem getElem?_simplify (blocks : List Block) (i : Nat) :
    (simplify blocks)[i]? = (blocks[i]?).map (simplifyBlock (Int64.ofNat (i + 1))) := by
  rw [simplify, getElem?_simplifyFrom, Nat.zero_add]

@[simp] theorem length_simplify (blocks : List Block) : (simplify blocks).length = blocks.length := by
  have hlen : ∀ index, (simplifyFrom index blocks).length = blocks.length := by
    induction blocks with
    | nil => exact fun _ => rfl
    | cons block rest ih => exact fun index => by rw [simplifyFrom, List.length_cons, ih, List.length_cons]
  exact hlen 0

/-- The operations of the transfers that simplifying writes. -/
def transferOps : List String := [jumpOp, branchIfOp, branchUnlessOp]

/-- What stands for an instruction is the instruction itself, or a transfer that
    uses its operands. -/
theorem mem_simplifyLast {follows : Int64} {last i : Instr} (h : i ∈ simplifyLast follows last) :
    i = last ∨ (i.op ∈ transferOps ∧ i.dest = noRegister ∧ i.args = [] ∧ i.trailing ⊆ last.trailing) := by
  unfold simplifyLast at h
  split at h
  · split at h
    · split at h
      · cases h
      · exact .inl (List.mem_singleton.1 h)
    · exact .inl (List.mem_singleton.1 h)
  · split at h
    · split at h
      · rename_i condition ifTrue ifFalse more htrailing
        rw [htrailing]
        split at h
        · rw [List.mem_singleton.1 h]
          exact .inr ⟨by simp [conditional, transferOps], rfl, rfl, by simp [conditional]⟩
        · split at h
          · rw [List.mem_singleton.1 h]
            exact .inr ⟨by simp [conditional, transferOps], rfl, rfl, by simp [conditional]⟩
          · rcases List.mem_cons.1 h with rfl | h
            · exact .inr ⟨by simp [conditional, transferOps], rfl, rfl, by simp [conditional]⟩
            · rw [List.mem_singleton.1 h]
              exact .inr ⟨by simp [jumpTo, transferOps], rfl, rfl, by simp [jumpTo]⟩
      · exact .inl (List.mem_singleton.1 h)
    · exact .inl (List.mem_singleton.1 h)

/-- An instruction of a simplified block is one of the block, or a transfer that
    uses the operands of one. -/
theorem mem_simplifyBlock {follows : Int64} {block : Block} {i : Instr} (h : i ∈ simplifyBlock follows block) :
    i ∈ block ∨ (i.op ∈ transferOps ∧ i.dest = noRegister ∧ i.args = [] ∧
      ∃ last ∈ block, i.trailing ⊆ last.trailing) := by
  unfold simplifyBlock at h
  cases hlast : block.getLast? with
  | none =>
      rw [hlast] at h
      exact .inl h
  | some last =>
      have hmem : last ∈ block := List.mem_of_getLast? hlast
      rw [hlast] at h
      rcases List.mem_append.1 h with h | h
      · exact .inl (List.dropLast_subset block h)
      · rcases mem_simplifyLast h with rfl | ⟨hop, hdest, hargs, hsub⟩
        · exact .inl hmem
        · exact .inr ⟨hop, hdest, hargs, last, hmem, hsub⟩

/-- An instruction that neither jumps nor branches is kept. -/
theorem mem_simplifyBlock_of_mem {follows : Int64} {block : Block} {i : Instr} (h : i ∈ block)
    (hjump : i.op ≠ jumpOp) (hbranch : i.op ≠ branchOp) : i ∈ simplifyBlock follows block := by
  unfold simplifyBlock
  cases hlast : block.getLast? with
  | none => exact h
  | some last =>
      rw [(List.dropLast_append_getLast? last hlast).symm] at h
      rcases List.mem_append.1 h with h | h
      · exact List.mem_append_left _ h
      · obtain rfl := List.mem_singleton.1 h
        refine List.mem_append_right _ ?_
        simp [simplifyLast, hjump, hbranch]

end SeaOfNodes.Listing
