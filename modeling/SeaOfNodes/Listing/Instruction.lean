/-
  SeaOfNodes.Listing.Instruction

  Instructions of a register machine.  An instruction names an operation, the
  register it writes, constants, the registers it reads, and operands whose
  meaning depends on the operation.  While a listing is being built the operands
  may still refer to nodes of the graph, so instructions are parameterised by
  their operands.
-/
import SeaOfNodes.Graph.Basic

namespace SeaOfNodes.Listing

/-- A virtual register. -/
abbrev Register := Int64

/-- The absence of a register. -/
def noRegister : Register := -1

/-- A register as it is written. -/
def Register.text (r : Register) : String :=
  if r = noRegister then "-" else "r" ++ toString (Int64.toInt r)

/-- One instruction with operands of a given type. -/
structure Instruction (ω : Type) where
  op : String
  /-- The register it writes, or `noRegister`. -/
  dest : Register
  imms : List Literal
  args : List Register
  trailing : List ω
deriving DecidableEq

/-- An operand of a finished listing.  The kind tells which of the other fields
    counts: 1 a register, 2 the index of a block, 3 the name of a method.  The
    kinds 4 and 5 stand for references to nodes, which a finished listing does
    not have. -/
structure Operand where
  kind : UInt8
  register : Register
  block : Int64
  selector : String
deriving DecidableEq

namespace Operand

/-- A register. -/
def ofRegister (r : Register) : Operand := ⟨1, r, 0, ""⟩

/-- A block, by its index in the listing. -/
def ofBlock (index : Int64) : Operand := ⟨2, 0, index, ""⟩

/-- The name of a method. -/
def ofSelector (name : String) : Operand := ⟨3, 0, 0, name⟩

/-- An operand of a kind alone. -/
def ofKind (kind : UInt8) : Operand := ⟨kind, 0, 0, ""⟩

end Operand

/-- An operand of a listing under construction. -/
inductive Ref where
  | register (r : Register)
  | selector (name : String)
  /-- The block that a node begins. -/
  | entry (node : NodeId)
  /-- The block that flows into the `n`-th input of a merge. -/
  | incoming (merge : NodeId) (n : Int64)
deriving DecidableEq

/-- An instruction of a finished listing. -/
abbrev Instr := Instruction Operand

/-- An instruction of a listing under construction. -/
abbrev Draft := Instruction Ref

/-- A basic block. -/
abbrev Block := List Instr

/-! ## Operations that only listings have -/

/-- Leave the method. -/
def returnOp : String := "return"

/-- Jump to one of two blocks. -/
def branchOp : String := "branch"

/-- Jump to a block if a register holds true, else on to the next block. -/
def branchIfOp : String := "branch_if"

/-- Jump to a block if a register holds false, else on to the next block. -/
def branchUnlessOp : String := "branch_unless"

/-- Jump to a block. -/
def jumpOp : String := "jump"

/-- The operation emitted for an operation of the graph. -/
def opcode (op : Op) : String := if op = .finish then returnOp else op.name

end SeaOfNodes.Listing
