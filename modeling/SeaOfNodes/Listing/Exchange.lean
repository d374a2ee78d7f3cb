/-
  SeaOfNodes.Listing.Exchange

  Listings as they are handed on: the name of a graph with its blocks.  On the
  wire the list of blocks and the instructions of a block may be absent, which
  differs from an empty list.
-/
import SeaOfNodes.Listing.Instruction

namespace SeaOfNodes

namespace Listing

/-- The blocks of a listing, each with its instructions, where lists may be
    absent. -/
abbrev Body := Option (List (Option Block))

/-- A body in which nothing is absent. -/
def bodyOf (blocks : List Block) : Body := some (blocks.map some)

end Listing

/-- The compiled form of a named graph. -/
structure Listing where
  graph : String
  body : Listing.Body
deriving DecidableEq

end SeaOfNodes
