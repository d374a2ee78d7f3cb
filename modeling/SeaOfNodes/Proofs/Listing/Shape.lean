/-
  SeaOfNodes.Proofs.Listing.Shape

  The shape of a block.  In a scheduled graph a block returns, branches at its end,
  or flows into a merge, and nothing before that does anything with control.
-/
import SeaOfNodes.Proofs.Listing.Emission

namespace SeaOfNodes.Listing

open Schedule

/-! ## Numbering changes no edges -/

theorem agree_numberNodes (g : Graph) (next : Int64) (ids : List NodeId) :
    Graph.Agree (fun _ => true) g (numberNodes g next ids) := by
  induction ids generalizing g next with
  | nil => exact .refl _ g
  | cons id rest ih =>
      rw [numberNodes]
      split
      · exact (Graph.agree_setProp _ g id Props.register (.int next)).trans (ih _ _)
      · exact ih g next

theorem agree_assignRegisters (g : Graph) (chains : List Chain) :
    Graph.Agree (fun _ => true) g (assignRegisters g chains) :=
  agree_numberNodes g _ _

/-- Numbering gives registers and leaves the other properties alone. -/
theorem get?_props_numberNodes {key : String} (hkey : key ≠ Props.register) (g : Graph) (next : Int64)
    (ids : List NodeId) (id : NodeId) :
    ((numberNodes g next ids).props id).get? key = (g.props id).get? key := by
  induction ids generalizing g next with
  | nil => rfl
  | cons x rest ih =>
      rw [numberNodes]
      split
      · rw [ih, Graph.props_setProp]
        split
        · exact Props.get?_set_ne hkey _ _
        · rfl
      · exact ih g next

theorem argumentCount_assignRegisters (g : Graph) (chains : List Chain) (id : NodeId) :
    argumentCount (assignRegisters g chains) id = argumentCount g id := by
  have hkey : Props.argumentCount ≠ Props.register := by decide
  unfold argumentCount Props.int? Graph.inputsNamed
  rw [assignRegisters, get?_props_numberNodes hkey, ← assignRegisters,
    (agree_assignRegisters g chains).inputsWhere_of_le fun _ _ => rfl]

section Agree

variable {keep : Role → Bool} {g g' : Graph} (h : Graph.Agree keep g g')
include h

theorem emits_agree : emits g' = emits g := by
  funext id
  unfold emits
  rw [h.op]

theorem soleInput_agree (id : NodeId) {role : Role} (hrole : keep role = true) :
    soleInput g' id role = soleInput g id role := by
  unfold soleInput
  rw [h.inputsWhere_of_le fun other hother => by rw [of_decide_eq_true hother, hrole], h.label]

theorem soleOutput_agree (id : NodeId) {name : Role.Name} (hname : ∀ role : Role, role.name = name → keep role = true) :
    soleOutput g' id name = soleOutput g id name := by
  unfold soleOutput Graph.outputsNamed
  rw [h.outputsWhere_of_le fun role hrole => hname role (of_decide_eq_true hrole), h.label]

end Agree

/-! ## Shapes -/

/-- A node does nothing with control. -/
def IsPlain (g : Graph) (id : NodeId) : Prop := g.op id ≠ .finish ∧ g.op id ≠ .branch

/-- The instructions of a chain: up to a return, up to a branch at the end, or up
    to a jump to the merge that the chain ends at. -/
inductive BlockShape (g : Graph) (layout : Layout) (c : Chain) : List Instr → Prop
  | returns {before after : List NodeId} {id : NodeId} {plain rest : List Instr} {x : Instr}
      (hnodes : c.nodes = before ++ id :: after) (hop : g.op id = .finish)
      (hplain : ∀ y ∈ before, IsPlain g y)
      (hbefore : List.Forall₂ (Emits g layout) (before.filter (emits g)) plain)
      (hx : Emits g layout id x) : BlockShape g layout c (plain ++ x :: rest)
  | branches {before : List NodeId} {id : NodeId} {plain : List Instr} {x : Instr}
      (hnodes : c.nodes = before ++ [id]) (hop : g.op id = .branch) (hmerge : c.merge? = none)
      (hplain : ∀ y ∈ before, IsPlain g y)
      (hbefore : List.Forall₂ (Emits g layout) (before.filter (emits g)) plain)
      (hx : Emits g layout id x) : BlockShape g layout c (plain ++ [x])
  | flows {merge : NodeId} {index : Nat} {plain : List Instr}
      (hplain : ∀ y ∈ c.nodes, IsPlain g y)
      (hnodes : List.Forall₂ (Emits g layout) (c.nodes.filter (emits g)) plain)
      (hmerge : c.merge? = some merge) (hindex : layout.index.lookup merge = some index) :
      BlockShape g layout c (plain ++ [jumpTo (.ofBlock (Int64.ofNat index))])

theorem isPlain_agree {g g' : Graph} (h : Graph.Agree (fun _ => true) g g') : IsPlain g' = IsPlain g := by
  funext id
  unfold IsPlain
  rw [h.op]

theorem emits_of_not_isFixed {g : Graph} {id : NodeId} (h : g.isFixed id = false) : emits g id = true := by
  unfold emits
  cases hop : g.op id <;> first | rfl | simp [Graph.isFixed, hop, Op.isFixed] at h

/-- Plain nodes emit instructions that go on. -/
theorem transfer_of_plain {g : Graph} {layout : Layout} {ids : List NodeId} {plain : List Instr}
    (hemits : List.Forall₂ (Emits g layout) (ids.filter (emits g)) plain) (hplain : ∀ y ∈ ids, IsPlain g y) :
    ∀ i ∈ plain, transfer i = .next := by
  intro i hi
  obtain ⟨id, hid, hemit⟩ := forall₂_mem_right hemits hi
  obtain ⟨hfinish, hbranch⟩ := hplain id (List.mem_of_mem_filter hid)
  exact hemit.transfer_next hfinish hbranch

/-- A block that begins with a branch does not go on to a merge. -/
theorem merge?_eq_none_of_branch {s : Graph} {order : NodeId → List NodeId} (hs : Scheduled s order) {c : Chain}
    (hc : ChainOf s order c) (hop : s.op c.first = .branch) : c.merge? = none := by
  cases hcase : c.merge? with
  | none => rfl
  | some merge =>
      have hother := hc.merge merge hcase
      simp only [isOtherMerge, Bool.and_eq_true, decide_eq_true_eq] at hother
      have hmem : merge ∈ blockMembers s c.first := by
        rw [hs.mem_blockMembers_iff hc.first_mem, ← hc.nodes_append, hcase]
        simp
      rcases hs.isFixed_of_branch hop (mem_blockMembers.1 hmem).2 with hsame | hfloating
      · exact absurd hsame hother.1
      · rw [Graph.isFixed_of_op (by rw [hother.2]; rfl)] at hfloating
        cases hfloating

/-- Where no merge follows, the last node of a chain closes its block. -/
theorem EmittedBlock.op_of_getLast? {g : Graph} {layout : Layout} {c : Chain} {body raw : List Instr}
    (hb : EmittedBlock g layout c body raw) (hmerge : c.merge? = none) {id : NodeId}
    (hlast : c.nodes.getLast? = some id) (hemits : emits g id = true) :
    g.op id = .finish ∨ g.op id = .branch := by
  rcases hb.ending with ⟨-, last, hbody, hclose⟩ | ⟨-, merge, -, hsome, -⟩
  · have hfilter : (c.nodes.filter (emits g)).getLast? = some id := by
      rw [← List.dropLast_append_getLast? id hlast, List.filter_append, List.filter_cons, if_pos hemits]
      simp
    obtain ⟨x, hx, hemit⟩ := exists_getLast?_of_forall₂ hb.nodes hfilter
    rw [hbody, Option.some.injEq] at hx
    subst hx
    rwa [hemit.op_eq, opcode_eq_return, opcode_eq_branch] at hclose
  · rw [hmerge] at hsome
    cases hsome

/-- Nothing of a chain that its block emits follows a branch. -/
theorem nil_after_branch {s out : Graph} {order : NodeId → List NodeId} (hs : Scheduled s order)
    (hagree : Graph.Agree (fun _ => true) s out) {layout : Layout} {c : Chain} (hc : ChainOf s order c)
    {body raw : List Instr} (hb : EmittedBlock out layout c body raw) {before after : List NodeId}
    {id : NodeId} (hsplit : c.nodes = before ++ id :: after) (hop : s.op id = .branch) :
    after = [] ∧ c.merge? = none := by
  by_cases hfirst : id = c.first
  · have hmerge := merge?_eq_none_of_branch hs hc (hfirst ▸ hop)
    refine ⟨?_, hmerge⟩
    by_contra hne
    obtain ⟨front, tail, rfl⟩ := (List.eq_nil_or_concat' after).resolve_left hne
    have hlast : c.nodes.getLast? = some tail := by
      rw [hsplit, ← List.cons_append, ← List.append_assoc]
      exact List.getLast?_concat
    have hmem : tail ∈ c.nodes := List.mem_of_getLast? hlast
    have hnotFirst : tail ≠ c.first := by
      rintro rfl
      have hnodup := hc.nodup_nodes hs
      rw [hsplit, hfirst] at hnodup
      simp [List.nodup_append] at hnodup
    -- All members of the block but the branch float, and the last instruction of a block
    -- without a merge is that of a fixed node.
    have hfloating := (hs.isFixed_of_branch (hfirst ▸ hop)
      (mem_blockMembers.1 ((hc.mem_nodes_iff hs).1 hmem).1).2).resolve_left hnotFirst
    have hclosing := hb.op_of_getLast? hmerge hlast (by rw [emits_agree hagree]; exact emits_of_not_isFixed hfloating)
    rw [hagree.op] at hclosing
    rcases hclosing with htail | htail <;>
      rw [Graph.isFixed_of_op (by rw [htail]; rfl)] at hfloating <;> cases hfloating
  · exact hc.eq_nil_of_endsBlock hs hsplit hfirst (.inl hop)

namespace EmittedBlock

variable {g : Graph} {layout : Layout} {c : Chain} {body raw : List Instr} (hb : EmittedBlock g layout c body raw)
include hb

/-- The instructions of a block split where its nodes do. -/
theorem split {before after : List NodeId} {id : NodeId} (hsplit : c.nodes = before ++ id :: after)
    (hemits : emits g id = true) :
    ∃ plain x rest, body = plain ++ x :: rest ∧ List.Forall₂ (Emits g layout) (before.filter (emits g)) plain ∧
      Emits g layout id x ∧ List.Forall₂ (Emits g layout) (after.filter (emits g)) rest :=
  forall₂_filter_of_split (hsplit ▸ hb.nodes) hemits

theorem shape_of_finish {before after : List NodeId} {id : NodeId} (hsplit : c.nodes = before ++ id :: after)
    (hplain : ∀ y ∈ before, IsPlain g y) (hop : g.op id = .finish) : BlockShape g layout c raw := by
  obtain ⟨plain, x, rest, hbody, hbefore, hx, -⟩ := hb.split hsplit (by simp [emits, hop])
  rcases hb.ending with ⟨rfl, -⟩ | ⟨-, merge, index, -, -, rfl⟩
  · rw [hbody]
    exact .returns hsplit hop hplain hbefore hx
  · rw [hbody, List.append_assoc, List.cons_append]
    exact .returns hsplit hop hplain hbefore hx

theorem shape_of_branch {before : List NodeId} {id : NodeId} (hsplit : c.nodes = before ++ [id])
    (hmerge : c.merge? = none) (hplain : ∀ y ∈ before, IsPlain g y) (hop : g.op id = .branch) :
    BlockShape g layout c raw := by
  obtain ⟨plain, x, rest, hbody, hbefore, hx, hrest⟩ := hb.split hsplit (by simp [emits, hop])
  obtain rfl : rest = [] := by simpa using hrest
  rcases hb.ending with ⟨rfl, -⟩ | ⟨-, merge, index, hsome, -, -⟩
  · rw [hbody]
    exact .branches hsplit hop hmerge hplain hbefore hx
  · rw [hmerge] at hsome
    cases hsome

theorem shape_of_plain (hplain : ∀ y ∈ c.nodes, IsPlain g y) : BlockShape g layout c raw := by
  rcases hb.ending with ⟨-, last, hlast, hclose⟩ | ⟨-, merge, index, hmerge, hindex, rfl⟩
  · obtain ⟨id, hid, hemit⟩ := forall₂_mem_right hb.nodes (List.mem_of_getLast? hlast)
    obtain ⟨hfinish, hbranch⟩ := hplain id (List.mem_of_mem_filter hid)
    rw [hemit.op_eq, opcode_eq_return, opcode_eq_branch] at hclose
    exact absurd hclose (not_or.2 ⟨hfinish, hbranch⟩)
  · exact .flows hplain hb.nodes hmerge hindex

/-- The block of a chain has one of the three shapes. -/
theorem shape {s : Graph} {order : NodeId → List NodeId} (hs : Scheduled s order)
    (hagree : Graph.Agree (fun _ => true) s g) (hc : ChainOf s order c) : BlockShape g layout c raw := by
  -- The shape is that of the first node which does something with control.
  cases hfind : c.nodes.find? fun id => g.op id = .finish ∨ g.op id = .branch with
  | none => exact hb.shape_of_plain fun y hy => by simpa [IsPlain] using List.find?_eq_none.1 hfind y hy
  | some id =>
      obtain ⟨hop, before, after, hsplit, hbefore⟩ := List.find?_eq_some_iff_append.1 hfind
      have hplain : ∀ y ∈ before, IsPlain g y := fun y hy => by simpa [IsPlain] using hbefore y hy
      rcases of_decide_eq_true hop with hfinish | hbranch
      · exact hb.shape_of_finish hsplit hplain hfinish
      · obtain ⟨rfl, hmerge⟩ := nil_after_branch hs hagree hc hb hsplit (hagree.op id ▸ hbranch)
        exact hb.shape_of_branch hsplit hmerge hplain hbranch

end EmittedBlock

end SeaOfNodes.Listing
