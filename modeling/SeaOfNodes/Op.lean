/-
  SeaOfNodes.Op

  The operation of a node.  Operations have a one-byte code: 0 is the invalid
  operation, 1 to 26 are the operations a graph may name, and the codes above
  are reserved.  A *fixed* operation is anchored in control flow by itself; a
  *value* operation may feed other nodes.
-/
import SeaOfNodes.Text.Quoted

namespace SeaOfNodes

/-- The operation a node performs. -/
inductive Op where
  | invalid
  | start
  | finish
  | branch
  | merge
  | phi
  | send
  | arg
  | self
  | push
  | load
  | store
  | not
  | add
  | sub
  | mul
  | lt
  | eq
  | kindIs
  | isTaggedFixnum
  | fixnumAdd
  | tagFixnum
  | untagFixnum
  | int64Add
  | guard
  | safepoint
  | trace
  /-- The codes from 27 up, which name nothing yet. -/
  | reserved (offset : Fin 229)
deriving DecidableEq

namespace Op

/-- The operations a graph may name, in the order of their codes. -/
def named : List Op :=
  [start, finish, branch, merge, phi, send, arg, self, push, load, store, not, add, sub, mul, lt, eq,
   kindIs, isTaggedFixnum, fixnumAdd, tagFixnum, untagFixnum, int64Add, guard, safepoint, trace]

/-- The code of an operation. -/
def code : Op → Nat
  | invalid => 0
  | start => 1
  | finish => 2
  | branch => 3
  | merge => 4
  | phi => 5
  | send => 6
  | arg => 7
  | self => 8
  | push => 9
  | load => 10
  | store => 11
  | not => 12
  | add => 13
  | sub => 14
  | mul => 15
  | lt => 16
  | eq => 17
  | kindIs => 18
  | isTaggedFixnum => 19
  | fixnumAdd => 20
  | tagFixnum => 21
  | untagFixnum => 22
  | int64Add => 23
  | guard => 24
  | safepoint => 25
  | trace => 26
  | reserved offset => 27 + offset

/-- The operation with a given code. -/
def ofCode (code : UInt8) : Op :=
  if code = 0 then invalid
  else
    match named[code.toNat - 1]? with
    | some op => op
    | none => reserved (Fin.ofNat 229 (code.toNat - 27))

/-- The tag of an operation, as graphs and listings write it. -/
def name : Op → String
  | invalid => "invalid"
  | start => "start"
  | finish => "finish"
  | branch => "branch"
  | merge => "merge"
  | phi => "phi"
  | send => "send"
  | arg => "arg"
  | self => "self"
  | push => "push"
  | load => "load"
  | store => "store"
  | not => "not"
  | add => "add"
  | sub => "sub"
  | mul => "mul"
  | lt => "lt"
  | eq => "eq"
  | kindIs => "kind_is"
  | isTaggedFixnum => "is_tagged_fixnum"
  | fixnumAdd => "fixnum_add"
  | tagFixnum => "tag_fixnum"
  | untagFixnum => "untag_fixnum"
  | int64Add => "int64_add"
  | guard => "guard"
  | safepoint => "safepoint"
  | trace => "trace"
  | reserved offset => "op(" ++ toString (27 + offset.val) ++ ")"

/-- Whether the operation is anchored in control flow whatever its edges are. -/
def isFixed : Op → Bool
  | start | finish | branch | merge | phi | send | store | guard | safepoint | trace => true
  | _ => false

/-- Whether the operation has a result that other nodes may consume. -/
def producesValue : Op → Bool
  | phi | send | arg | self | push | load | not | add | sub | mul | lt | eq | kindIs | isTaggedFixnum
  | fixnumAdd | tagFixnum | untagFixnum | int64Add => true
  | _ => false

/-- A tag that names no operation. -/
structure Unknown where
  tag : String
deriving DecidableEq

/-- How an unknown tag is reported. -/
def Unknown.message (e : Unknown) : String :=
  "unknown operation " ++ Text.quote e.tag

/-- The operation with a given tag.  The invalid operation and the reserved
    codes have no tag that a graph could use. -/
def ofName (tag : String) : Except Unknown Op :=
  match named.find? (fun op => op.name == tag) with
  | some op => .ok op
  | none => .error ⟨tag⟩

end Op

end SeaOfNodes
