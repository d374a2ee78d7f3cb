/-
  SeaOfNodes.Listing.Simplify

  Block endings that fall through to the next block where they can:

    jump next         is dropped
    branch c, t, next becomes  branch_if c, t
    branch c, next, f becomes  branch_unless c, f
    branch c, t, f    becomes  branch_if c, t; jump f
-/
import SeaOfNodes.Listing.Instruction

namespace SeaOfNodes.Listing

/-- A conditional transfer. -/
def conditional (op : String) (condition target : Operand) : Instr :=
  ⟨op, noRegister, [], [], [condition, target]⟩

/-- An unconditional transfer. -/
def jumpTo (target : Operand) : Instr := ⟨jumpOp, noRegister, [], [], [target]⟩

/-- The instructions that stand for a block's last one when `next` is the index
    of the block that follows. -/
def simplifyLast (next : Int64) (last : Instr) : List Instr :=
  if last.op = jumpOp then
    match last.trailing with
    | target :: _ => if target.block = next then [] else [last]
    | [] => [last]
  else if last.op = branchOp then
    match last.trailing with
    | condition :: ifTrue :: ifFalse :: _ =>
      if ifFalse.block = next then [conditional branchIfOp condition ifTrue]
      else if ifTrue.block = next then [conditional branchUnlessOp condition ifFalse]
      else [conditional branchIfOp condition ifTrue, jumpTo ifFalse]
    | _ => [last]
  else [last]

/-- Simplify the ending of a block. -/
def simplifyBlock (next : Int64) (block : Block) : Block :=
  match block.getLast? with
  | none => block
  | some last => block.dropLast ++ simplifyLast next last

/-- Simplify the endings of blocks, the first of them at a given index. -/
def simplifyFrom : (index : Nat) → List Block → List Block
  | _, [] => []
  | i, block :: rest => simplifyBlock (Int64.ofNat (i + 1)) block :: simplifyFrom (i + 1) rest

/-- Simplify the endings of all blocks of a listing. -/
def simplify (blocks : List Block) : List Block := simplifyFrom 0 blocks

end SeaOfNodes.Listing
