/-
  SeaOfNodes.Pass.Tagging

  Lowering of small-integer operations to machine integers with explicit
  conversions:

    kind_is(fixnum)  becomes  is_tagged_fixnum
    fixnum_add(a, b) becomes  tag_fixnum(int64_add(untag_fixnum(a), untag_fixnum(b)))

  When control leaves the addition, each new tag node is also put in control
  flow between it and its first control successor.  An addition without exactly
  two value inputs is refused before anything is changed.
-/
import SeaOfNodes.Graph.Query
import SeaOfNodes.Pass.Change

namespace SeaOfNodes.Pass.Tagging

/-- The kind that a small-integer test asks for. -/
def fixnum : String := "fixnum"

/-- The properties that a lowered node keeps: the source line. -/
def carriedProps (g : Graph) (id : NodeId) : Props :=
  match (g.props id).get? Props.line with
  | some line => Props.empty.set Props.line line
  | none => .empty

/-- Refuse an addition that does not have exactly two value inputs. -/
def check (g : Graph) (add : NodeId) : Except Error Unit :=
  let n := (g.inputsWhere add Role.isValue).length
  if n = 2 then .ok () else .error (.malformed (g.label add) n)

/-- Whether a node tests for small integers. -/
def isFixnumTest (g : Graph) (id : NodeId) : Bool :=
  (g.props id).str? Props.kind == some fixnum

/-- Lower one kind test. -/
def lowerTest (g : Graph) (id : NodeId) : Except Misuse Graph :=
  let (test, g') := g.addNode .isTaggedFixnum (carriedProps g id)
  g'.replace id test

/-- Splice a new node onto an edge.  The answer is the new node and the graph. -/
def convert (op : Op) (g : Graph) (e : Edge) : Except Misuse (NodeId × Graph) := do
  let (mid, g) := g.addNode op .empty
  return (mid, ← g.interdict e mid)

/-- Put a tag node in control flow between the addition and what follows it. -/
def sequenceTag (add next : NodeId) (g : Graph) (tag : NodeId) : Except Misuse Graph := do
  let g ← g.connect ⟨add, tag, .control⟩
  g.connect ⟨tag, next, .control⟩

/-- Splice a tag node onto a value edge leaving the addition and remember it. -/
def tagUse (state : List NodeId × Graph) (e : Edge) : Except Misuse (List NodeId × Graph) := do
  let (tag, g) ← convert .tagFixnum state.2 e
  return (state.1 ++ [tag], g)

/-- Lower one addition. -/
def lowerAdd (g : Graph) (add : NodeId) : Except Misuse Graph := do
  let g ← (g.inputsWhere add Role.isValue).foldlM
    (fun g e => do return (← convert .untagFixnum g e).2) g
  let (tags, g) ← (g.outputsWhere add Role.isValue).foldlM tagUse ([], g)
  let g ←
    match g.controlSuccessors add with
    | [] => pure g
    | next :: _ => tags.foldlM (sequenceTag add next) g
  let (sum, g') := g.addNode .int64Add (carriedProps g add)
  g'.replace add sum

/-- Lower every small-integer test and addition. -/
def lower (g : Graph) : Except Misuse Change := do
  let tests := (g.find .kindIs).filter (isFixnumTest g)
  let adds := g.find .fixnumAdd
  let g ← tests.foldlM lowerTest g
  let g ← adds.foldlM lowerAdd g
  return ⟨g, tests.length + adds.length⟩

/-- Check every addition, then lower. -/
def run (g : Graph) : Except Error Change := do
  (g.find .fixnumAdd).forM (check g)
  match lower g with
  | .ok r => return r
  | .error cause => throw (.misuse cause)

end SeaOfNodes.Pass.Tagging
