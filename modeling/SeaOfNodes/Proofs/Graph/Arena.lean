/-
  SeaOfNodes.Proofs.Graph.Arena

  Surgery as it is done in place.  An arena holds cells that know their own handle and
  a counter of the cells in use; an operation rewrites it edge by edge and looks every
  edge up at its other end, where it may turn out to be missing when half of the work is
  done.  `Graph` leaves the handles, the counter and these look-ups out; that nothing is
  lost by this is proved here: on a consistent arena an operation does what the one on
  graphs does, and one that stops has changed nothing.
-/
import SeaOfNodes.Outcome
import SeaOfNodes.Proofs.Graph.Calls

namespace SeaOfNodes

/-- A slot of an arena that is in use. -/
structure Cell extends Node where
  id : NodeId

/-- The slots of a graph, and how many of them are in use. -/
structure Arena where
  slots : Array (Option Cell)
  live : Int

namespace Arena

/-- Why an operation stops: it was asked something impossible, or an edge is missing at
    its other end. -/
inductive Halt where
  | misuse (cause : Misuse)
  | missingOutput (edge : Edge) (label : Label)
  | missingInput (edge : Edge) (label : Label)

/-- What an operation leaves behind, whether it stops or not. -/
abbrev Step := Outcome Arena Halt Unit

/-- The arena without cells. -/
def empty : Arena := ⟨#[], 0⟩

/-- The cell of a handle, unless it was dropped or never existed. -/
def cell? (a : Arena) : NodeId → Option Cell
  | .ofNat i => (a.slots[i]?).join
  | .negSucc _ => none

/-- The edges that reach a node. -/
def inputs (a : Arena) (id : NodeId) : List Edge := ((a.cell? id).map fun c => c.inputs).getD []

/-- The edges that leave a node. -/
def outputs (a : Arena) (id : NodeId) : List Edge := ((a.cell? id).map fun c => c.outputs).getD []

/-- The graph that an arena stands for. -/
def graph (a : Arena) : Graph := ⟨a.slots.map (Option.map Cell.toNode)⟩

/-! ## Operations -/

/-- Append a cell.  The answer is its handle. -/
def addNode (a : Arena) (op : Op) (props : Props) : NodeId × Arena :=
  let id := Int.ofNat a.slots.size
  (id, ⟨a.slots.push (some ⟨⟨op, props, [], []⟩, id⟩), a.live + 1⟩)

/-- Change the cell of a handle in place. -/
def update (a : Arena) (id : NodeId) (f : Node → Node) : Arena :=
  match id with
  | .ofNat i => ⟨a.slots.modify i (Option.map fun c => ⟨f c.toNode, c.id⟩), a.live⟩
  | .negSucc _ => a

/-- Empty a slot. -/
def drop (a : Arena) (id : NodeId) : Arena :=
  match id with
  | .ofNat i => ⟨a.slots.setIfInBounds i none, a.live - 1⟩
  | .negSucc _ => a

/-- Continue with the cell of a handle that has to name one. -/
def require (a : Arena) (id : NodeId) (next : Cell → Step) : Step :=
  match a.cell? id with
  | some c => next c
  | none => .failed a (.misuse (.missingNode id))

/-- Continue if an edge is stored at both of its ends. -/
def requireEdge (a : Arena) (e : Edge) (next : Step) : Step :=
  a.require e.source fun source =>
    a.require e.target fun target =>
      if e ∈ source.outputs ∧ e ∈ target.inputs then next else .failed a (.misuse (.missingEdge e))

/-- Put an edge in the place of another among those that leave a node. -/
def rewriteOutput (a : Arena) (id : NodeId) (old new : Edge) : Step :=
  a.require id fun c =>
    if old ∈ c.outputs then .done (a.update id (Node.redirectOutput old new)) ()
    else .failed a (.missingOutput old ⟨id, c.op⟩)

/-- Put an edge in the place of another among those that reach a node. -/
def rewriteInput (a : Arena) (id : NodeId) (old new : Edge) : Step :=
  a.require id fun c =>
    if old ∈ c.inputs then .done (a.update id (Node.redirectInput old new)) ()
    else .failed a (.missingInput old ⟨id, c.op⟩)

/-- Take one step for each edge of a list, up to the first that stops. -/
def forEach (step : Arena → Edge → Step) : Arena → List Edge → Step
  | a, [] => .done a ()
  | a, e :: rest => (step a e).andThen fun a _ => forEach step a rest

/-- Add an edge. -/
def connect (a : Arena) (e : Edge) : Step :=
  a.require e.source fun _ =>
    a.require e.target fun _ =>
      .done ((a.update e.source (Node.addOutput e)).update e.target (Node.addInput e)) ()

/-- Remove one instance of an edge. -/
def disconnect (a : Arena) (e : Edge) : Step :=
  a.requireEdge e (.done ((a.update e.source (Node.eraseOutput e)).update e.target (Node.eraseInput e)) ())

/-- Move an edge that reached `old` to `new`. -/
def moveInput (old new : NodeId) (a : Arena) (e : Edge) : Step :=
  let moved : Edge := ⟨Graph.rename old new e.source, new, e.role⟩
  (if e.source = old then Outcome.done a () else a.rewriteOutput e.source e moved).andThen fun a _ =>
    .done (a.update new (Node.addInput moved)) ()

/-- Move an edge that left `old` to `new`. -/
def moveOutput (old new : NodeId) (a : Arena) (e : Edge) : Step :=
  let moved : Edge := ⟨new, Graph.rename old new e.target, e.role⟩
  (if e.target = old then Outcome.done a () else a.rewriteInput e.target e moved).andThen fun a _ =>
    .done (a.update new (Node.addOutput moved)) ()

/-- Move every edge of `old` onto `new` and drop `old`. -/
def replace (a : Arena) (old new : NodeId) : Step :=
  a.require old fun c =>
    a.require new fun _ =>
      if old = new then .failed a (.misuse (.selfReplacement ⟨old, c.op⟩))
      else
        (forEach (moveInput old new) a c.inputs).andThen fun a _ =>
          (forEach (moveOutput old new) a (a.outputs old)).andThen fun a _ => .done (a.drop old) ()

/-- Move a value edge that left `old` to `new`. -/
def moveUse (new : NodeId) (a : Arena) (e : Edge) : Step :=
  let moved : Edge := ⟨new, e.target, e.role⟩
  (a.rewriteInput e.target e moved).andThen fun a _ => .done (a.update new (Node.addOutput moved)) ()

/-- Move every value edge that leaves `old` onto `new`. -/
def replaceUses (a : Arena) (old new : NodeId) : Step :=
  a.require old fun c =>
    a.require new fun _ =>
      if old = new then .failed a (.misuse (.selfForwarding ⟨old, c.op⟩))
      else
        (forEach (moveUse new) a (c.outputs.filter fun e => e.role.isValue)).andThen fun a _ =>
          .done (a.update old fun n => { n with outputs := c.outputs.filter fun e => !e.role.isValue }) ()

/-- Splice `mid` onto an edge. -/
def interdict (a : Arena) (e : Edge) (mid : NodeId) : Step :=
  a.require mid fun _ =>
    let head : Edge := ⟨e.source, mid, if e.role.isControl then Role.control else Role.value⟩
    let tail : Edge := ⟨mid, e.target, e.role⟩
    a.requireEdge e <|
      let a := a.update e.source (Node.redirectOutput e head)
      let a := a.update e.target (Node.redirectInput e tail)
      .done ((a.update mid (Node.addInput head)).update mid (Node.addOutput tail)) ()

/-- Disconnect every edge of a node and drop it. -/
def remove (a : Arena) (id : NodeId) : Step :=
  a.require id fun c =>
    (forEach disconnect a c.inputs).andThen fun a _ =>
      (forEach disconnect a (a.outputs id)).andThen fun a _ => .done (a.drop id) ()

/-! ## Calls -/

/-- What a call does to an arena. -/
def perform (a : Arena) : Graph.Call → Step
  | .addNode op props => .done (a.addNode op props).2 ()
  | .connect e => a.connect e
  | .disconnect e => a.disconnect e
  | .replace old new => a.replace old new
  | .replaceUses old new => a.replaceUses old new
  | .interdict e mid => a.interdict e mid
  | .remove id => a.remove id

/-- The arena after a sequence of calls.  One that stops leaves what it has reached to the
    next. -/
def run (a : Arena) (calls : List Graph.Call) : Arena := calls.foldl (fun a call => (a.perform call).state) a

/-! ## The graph of an arena -/

section Graph

variable (a : Arena)

theorem node?_graph (id : NodeId) : a.graph.node? id = (a.cell? id).map Cell.toNode := by
  cases id with
  | negSucc i => rfl
  | ofNat i =>
      simp only [graph, Graph.node?, cell?, Array.getElem?_map]
      cases a.slots[i]? with
      | none => rfl
      | some slot => cases slot <;> rfl

theorem has_graph (id : NodeId) : a.graph.has id = (a.cell? id).isSome := by
  rw [Graph.has, node?_graph, Option.isSome_map]

@[simp] theorem inputs_graph (id : NodeId) : a.graph.inputs id = a.inputs id := by
  rw [Graph.inputs, node?_graph, Option.map_map]
  rfl

@[simp] theorem outputs_graph (id : NodeId) : a.graph.outputs id = a.outputs id := by
  rw [Graph.outputs, node?_graph, Option.map_map]
  rfl

theorem op_graph {id : NodeId} {c : Cell} (h : a.cell? id = some c) : a.graph.op id = c.op := by
  rw [Graph.op, node?_graph, h]
  rfl

theorem graph_addNode (op : Op) (props : Props) : (a.addNode op props).2.graph = (a.graph.addNode op props).2 := by
  simp [addNode, graph, Graph.addNode]

@[simp] theorem graph_update (id : NodeId) (f : Node → Node) : (a.update id f).graph = a.graph.modify id f := by
  cases id with
  | negSucc i => rfl
  | ofNat i =>
      refine congrArg Graph.mk (Array.ext_getElem? fun j => ?_)
      simp only [update, graph, Array.getElem?_map, Array.getElem?_modify]
      split
      · cases a.slots[j]? with
        | none => rfl
        | some slot => cases slot <;> rfl
      · rfl

@[simp] theorem graph_drop (id : NodeId) : (a.drop id).graph = a.graph.drop id := by
  cases id with
  | negSucc i => rfl
  | ofNat i =>
      refine congrArg Graph.mk (Array.ext_getElem? fun j => ?_)
      simp only [drop, graph, Array.getElem?_map, Array.getElem?_modify, Array.getElem?_setIfInBounds]
      split
      · rename_i hij
        subst hij
        split
        · rename_i hlt
          simp [hlt]
        · rename_i hge
          simp [hge]
      · rfl

end Graph

/-- The cells know their handles, and the counter counts them. -/
structure Sound (a : Arena) : Prop where
  id_eq : ∀ i c, a.cell? i = some c → c.id = i
  live_eq : a.live = a.slots.countP Option.isSome

theorem cell?_update (a : Arena) (id other : NodeId) (f : Node → Node) :
    (a.update id f).cell? other
      = if other = id then (a.cell? other).map fun c => ⟨f c.toNode, c.id⟩ else a.cell? other := by
  cases id with
  | negSucc i =>
      cases other with
      | negSucc j => simp [cell?]
      | ofNat j => simp [update]
  | ofNat i =>
      cases other with
      | negSucc j => simp [cell?]
      | ofNat j =>
          simp only [update, cell?, Array.getElem?_modify, Int.ofNat_eq_natCast, Int.natCast_inj, eq_comm (a := j)]
          split
          · cases a.slots[j]? with
            | none => rfl
            | some slot => cases slot <;> rfl
          · rfl

theorem countP_update (a : Arena) (id : NodeId) (f : Node → Node) :
    (a.update id f).slots.countP Option.isSome = a.slots.countP Option.isSome := by
  cases id with
  | negSucc i => rfl
  | ofNat i =>
      -- The change keeps which slots are in use.
      have hused : (a.update (.ofNat i) f).slots.map Option.isSome = a.slots.map Option.isSome := by
        refine Array.ext_getElem? fun j => ?_
        simp only [update, Array.getElem?_map, Array.getElem?_modify]
        split
        · cases a.slots[j]? with
          | none => rfl
          | some slot => cases slot <;> rfl
        · rfl
      have hcount := congrArg (Array.countP id) hused
      rwa [Array.countP_map, Array.countP_map] at hcount

theorem Sound.update {a : Arena} (h : a.Sound) (id : NodeId) (f : Node → Node) : (a.update id f).Sound where
  id_eq i c hc := by
    rw [cell?_update] at hc
    split at hc
    · obtain ⟨c', hc', rfl⟩ := Option.map_eq_some_iff.1 hc
      exact h.id_eq i c' hc'
    · exact h.id_eq i c hc
  live_eq := by
    rw [countP_update, ← h.live_eq]
    cases id <;> rfl

theorem Sound.addNode {a : Arena} (h : a.Sound) (op : Op) (props : Props) : (a.addNode op props).2.Sound where
  id_eq i c hc := by
    cases i with
    | negSucc j => cases hc
    | ofNat j =>
        simp only [Arena.addNode, cell?, Array.getElem?_push] at hc
        split at hc
        · rename_i hj
          cases hc
          rw [hj]
        · exact h.id_eq (.ofNat j) c hc
  live_eq := by
    simp [Arena.addNode, h.live_eq]

theorem Sound.drop {a : Arena} (h : a.Sound) {id : NodeId} (hid : a.graph.has id = true) : (a.drop id).Sound where
  id_eq i c hc := by
    cases id with
    | negSucc k => exact h.id_eq i c hc
    | ofNat k =>
        cases i with
        | negSucc j => cases hc
        | ofNat j =>
            simp only [Arena.drop, cell?, Array.getElem?_setIfInBounds] at hc
            split at hc
            · split at hc <;> cases hc
            · exact h.id_eq (.ofNat j) c hc
  live_eq := by
    rw [has_graph] at hid
    cases id with
    | negSucc k => cases hid
    | ofNat k =>
        have hlt : k < a.slots.size := by
          by_contra hge
          simp [cell?, hge] at hid
        have hused : a.slots[k].isSome = true := by simpa [cell?, hlt] using hid
        have hpos : 0 < a.slots.countP Option.isSome := Array.countP_pos_iff.2 ⟨_, Array.getElem_mem hlt, hused⟩
        simp only [Arena.drop, Array.setIfInBounds, hlt, dite_true, Array.countP_set, hused, if_true,
          Option.isSome_none, Bool.false_eq_true, if_false, h.live_eq]
        omega

end Arena

end SeaOfNodes
