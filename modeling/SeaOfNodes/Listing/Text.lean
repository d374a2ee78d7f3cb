/-
  SeaOfNodes.Listing.Text

  Listings as text.  Every block but the first has a header line with its index,
  an instruction is indented by two spaces, and its parts are separated by one.
-/
import SeaOfNodes.Listing.Exchange

namespace SeaOfNodes.Listing

/-- An operand as it is written. -/
def Operand.text (o : Operand) : String :=
  match o.kind.toNat with
  | 1 => Register.text o.register
  | 2 => "block" ++ toString o.block.toInt
  | 3 => o.selector
  | 4 => "?n0"
  | 5 => "?n0(0)"
  | _ => "?"

/-- The parts of an instruction. -/
def instrParts (i : Instr) : List String :=
  i.op :: (if i.dest = noRegister then [] else [Register.text i.dest])
    ++ i.imms.map Literal.text ++ i.args.map Register.text ++ i.trailing.map Operand.text

/-- An instruction as it is written. -/
def instrText (i : Instr) : String := " ".intercalate (instrParts i)

/-- A block with its header. -/
def blockText (index : Nat) (block : Option Block) : String :=
  (if index = 0 then "" else "block" ++ toString index ++ ":\n")
    ++ String.join ((block.getD []).map fun i => "  " ++ instrText i ++ "\n")

/-- Blocks, the first of them at a given index. -/
def blocksTextFrom : (index : Nat) → List (Option Block) → String
  | _, [] => ""
  | i, block :: rest => blockText i block ++ blocksTextFrom (i + 1) rest

/-- The blocks of a listing. -/
def bodyText (body : Body) : String := blocksTextFrom 0 (body.getD [])

/-- Listings with their names, separated by blank lines. -/
def listingsText (listings : List Listing) : String :=
  "\n".intercalate (listings.map fun l => "graph " ++ l.graph ++ "\n" ++ bodyText l.body)

end SeaOfNodes.Listing
