/-
  SeaOfNodes.Proofs.Listing.Placement

  When a listing writes every register before it reads it.  A value may be read where
  it was computed before on every path, so the block that computes it has to dominate
  the block that needs it.  For the values of fixed nodes the order of the graph sees to
  that, and a floating value with one use is where that use is; a floating value with
  several uses is where the anchors put it.
-/
import SeaOfNodes.Proofs.Listing.Execution
import SeaOfNodes.Proofs.Listing.Inflow
import SeaOfNodes.Proofs.Schedule.BlockOrder
import SeaOfNodes.Proofs.Schedule.Precedence

namespace SeaOfNodes.Listing

open Schedule

/-! ## Where values are and where they are needed -/

/-- The block of a node. -/
def Home (chains : List Chain) (id : NodeId) (b : Nat) : Prop := ∃ c, chains[b]? = some c ∧ id ∈ c.nodes

theorem home_iff {chains : List Chain} {b : Nat} {c : Chain} (hc : chains[b]? = some c) {id : NodeId} :
    Home chains id b ↔ id ∈ c.nodes := by
  simp [Home, hc]

/-- A block needs the value of an edge: the block of the node that reads it, unless a
    finish stands before the node; for a phi the block that flows into its merge by the
    input of the edge, unless it returns. -/
inductive NeededIn (s : Graph) (chains : List Chain) (layout : Layout) (id : NodeId) (e : Edge) : Nat → Prop
  | here {b : Nat} {c : Chain} {done todo : List NodeId} (hphi : s.op id ≠ .phi) (hemits : emits s id = true)
      (hoperand : IsOperand s id e) (hc : chains[b]? = some c) (hsplit : c.nodes = done ++ id :: todo)
      (hfinish : ∀ x ∈ done, s.op x ≠ .finish) : NeededIn s chains layout id e b
  | before {b : Nat} {c : Chain} (hphi : s.op id = .phi) (hcomes : ComesBy s layout id e b)
      (hc : chains[b]? = some c) (hfinish : ∀ x ∈ c.nodes, s.op x ≠ .finish) :
      NeededIn s chains layout id e b

/-- A value is needed in several places. -/
def Shared (s : Graph) (id : NodeId) : Prop := ∃ a ∈ s.useSites id, ∃ b ∈ s.useSites id, a ≠ b

/-- Floating values with several uses are computed where they have to be: the block of
    the value dominates every block that needs it.  A phi may also read a value of its
    own block.  The same is asked of the operands of floating nodes if control returns to
    a start, and of an operand of a phi that is read on the way from another block than
    that of the place it is scheduled for, which happens where two inputs of a merge have
    one number. -/
def WellPlaced (s : Graph) (chains : List Chain) (layout : Layout) (blocks : List Block) (entry : Nat) : Prop :=
  ∀ id, ∀ e ∈ s.inputs id, ∀ b, NeededIn s chains layout id e b →
    (s.isFloating e.source = true ∧ Shared s e.source) ∨ (s.isFloating id = true ∧ Returns s) ∨
      ¬ Home chains (s.useSite e) b →
    ∀ a, Home chains e.source a → Home chains id a ∨ Dominates blocks entry a b

theorem ComesBy.isValue {g : Graph} {layout : Layout} {id : NodeId} {e : Edge} {b : Nat}
    (h : ComesBy g layout id e b) : e.role.isValue = true := by
  rw [Role.isValue, h.1]
  rfl

theorem isOperand_of_comesBy {g : Graph} {layout : Layout} {id : NodeId} {e : Edge} {b : Nat}
    (hphi : g.op id = .phi) (h : ComesBy g layout id e b) : IsOperand g id e := by
  rw [IsOperand, if_neg (by simp [hphi])]
  exact .inl h.1

/-! ## Listings without given registers -/

/-- A listing of a scheduled graph that came without registers. -/
structure FreshListing (s out : Graph) (order : NodeId → List NodeId) (chains : List Chain) (layout : Layout)
    (blocks : List Block) : Prop extends Listed s order out chains layout blocks where
  scheduled : Scheduled s order
  fresh : ∀ id, (s.props id).has Props.register = false
  small : s.arena.size < 2 ^ 63

namespace FreshListing

variable {s out : Graph} {order : NodeId → List NodeId} {chains : List Chain} {layout : Layout}
  {blocks : List Block} (h : FreshListing s out order chains layout blocks)
include h

theorem index_toInt : ∀ node index, layout.index.lookup node = some index → (Int64.ofNat index).toInt = index :=
  fun _ _ hindex => h.toInt_index h.small hindex

theorem numbered : Numbered out := by
  intro id r hr
  refine ⟨?_, h.registerOf_ne_noRegister h.scheduled h.fresh h.small hr⟩
  have hvalue := ((h.registerOf_eq_ok h.scheduled h.fresh).1 hr).1.2
  rw [Graph.producesValue, h.agree.op]
  exact hvalue

theorem inputs_out (id : NodeId) : out.inputs id = s.inputs id := h.agree.inputs_eq id

theorem isOperand_out (id : NodeId) (e : Edge) : IsOperand out id e ↔ IsOperand s id e := by
  rw [h.out_eq]
  exact isOperand_assignRegisters s chains id e

theorem comesBy_out (id : NodeId) (e : Edge) (b : Nat) : ComesBy out layout id e b ↔ ComesBy s layout id e b := by
  have hsame : Graph.SameProgram s out := h.agree.sameProgram
  unfold ComesBy
  rw [hsame.phiMerge?]

theorem finished {b : Nat} {c : Chain} (hc : chains[b]? = some c) :
    ∃ block, blocks[b]? = some block ∧ FinishedBlock out layout c b block := by
  obtain ⟨hb, -⟩ := List.getElem?_eq_some_iff.1 hc
  have hblock := List.getElem?_eq_getElem (h.length_eq ▸ hb : b < blocks.length)
  obtain ⟨c', hc', hfinished⟩ := h.finishedBlock h.small hblock
  rw [hc, Option.some.injEq] at hc'
  exact ⟨_, hblock, hc' ▸ hfinished⟩

theorem quiet : Quiet blocks := by
  intro block hblock ran i rest hsplit hran hleaves
  obtain ⟨b, hb⟩ := List.mem_iff_getElem?.1 hblock
  obtain ⟨c, -, hfinished⟩ := h.finishedBlock h.small hb
  exact hfinished.quiet hsplit hran hleaves

theorem home_unique {id : NodeId} {a b : Nat} (ha : Home chains id a) (hb : Home chains id b) : a = b := by
  obtain ⟨c, hc, hid⟩ := ha
  obtain ⟨d, hd, hid'⟩ := hb
  exact h.planned.index_unique h.scheduled hc hd hid hid'

/-- What has a register has a block. -/
theorem exists_home {id : NodeId} {r : Register} (hr : registerOf out id = .ok r) : ∃ a, Home chains id a := by
  obtain ⟨⟨⟨c, hc, hid⟩, -⟩, -⟩ := (h.registerOf_eq_ok h.scheduled h.fresh).1 hr
  obtain ⟨a, ha⟩ := List.mem_iff_getElem?.1 hc
  exact ⟨a, c, ha, hid⟩

/-- Members of a block that it owns have it as their block. -/
theorem home_of_mem {b : Nat} {c : Chain} (hc : chains[b]? = some c) {x : NodeId}
    (hx : x ∈ blockMembers s c.first) (hown : isOtherMerge s c.first x = false) : Home chains x b :=
  ⟨c, hc, ((h.planned.chainOf c (List.mem_of_getElem? hc)).mem_nodes_iff h.scheduled).2 ⟨hx, hown⟩⟩

theorem exists_chain {a b : Nat} (hleads : Leads blocks a b) : ∃ d, chains[a]? = some d := by
  obtain ⟨block, hblock, -⟩ := hleads
  obtain ⟨d, hd, -⟩ := h.finishedBlock h.small hblock
  exact ⟨d, hd⟩

/-- A block that was left has no finish. -/
theorem noFinish_of_leads {a b : Nat} (hleads : Leads blocks a b) {c : Chain} (hc : chains[a]? = some c) :
    ∀ x ∈ c.nodes, s.op x ≠ .finish := by
  obtain ⟨block, hblock, hexit⟩ := hleads
  obtain ⟨c', hc', hfinished⟩ := h.finishedBlock h.small hblock
  rw [hc, Option.some.injEq] at hc'
  subst hc'
  intro x hx
  rw [← h.agree.op]
  exact (hfinished.of_mem_exits h.index_toInt hexit).1 x hx

/-- So it wrote the registers of all its nodes. -/
theorem writtenIn_iff {a b : Nat} (hleads : Leads blocks a b) {r : Register} :
    WrittenIn blocks a r ↔ ∃ x, Home chains x a ∧ registerOf out x = .ok r := by
  obtain ⟨block, hblock, hexit⟩ := hleads
  obtain ⟨c, hc, hfinished⟩ := h.finishedBlock h.small hblock
  have hwrites := hfinished.mem_writes h.numbered (hfinished.of_mem_exits h.index_toInt hexit).1 (r := r)
  simp only [WrittenIn, hblock, Option.some.injEq, exists_eq_left', hwrites, Home, hc]

variable {entry : Nat}

/-- What was written when the instruction of a node is reached: the registers of the
    nodes before it on its chain, and of those in the blocks before. -/
theorem mem_written_iff {b : Nat} {before : List Nat} {ran rest : List Instr} {i : Instr}
    {written : List Register} (hreach : Reaches blocks entry ⟨b :: before, i :: rest, written⟩) {c : Chain}
    {block : Block} (hblock : blocks[b]? = some block) (hsplit : block = ran ++ i :: rest) {done : List NodeId}
    {id : NodeId} (hexec : Executes out layout c block done id ran i) {r : Register} :
    r ∈ written ↔ ∃ x, registerOf out x = .ok r ∧ (x ∈ done ∨ ∃ a ∈ before, Home chains x a) := by
  obtain ⟨b', before', block', ran', hstands⟩ := hreach.stands
  obtain ⟨rfl, rfl⟩ := List.cons.inj hstands.path_eq
  obtain rfl : block = block' := Option.some.inj (hblock.symm.trans hstands.block_eq)
  obtain rfl : ran = ran' := List.append_cancel_right (hsplit.symm.trans hstands.split)
  have hearlier : (∃ a ∈ before, WrittenIn blocks a r) ↔
      ∃ a ∈ before, ∃ x, Home chains x a ∧ registerOf out x = .ok r := by
    refine exists_congr fun a => and_congr_right fun ha => ?_
    obtain ⟨next, hleads⟩ := hstands.entered.leads_of_mem ha
    exact h.writtenIn_iff hleads
  rw [hstands.mem_written h.quiet, hexec.written, hearlier]
  constructor
  · rintro (⟨x, hx, hr⟩ | ⟨a, ha, x, hx, hr⟩)
    · exact ⟨x, hr, .inl hx⟩
    · exact ⟨x, hr, .inr ⟨a, ha, hx⟩⟩
  · rintro ⟨x, hr, hx | ⟨a, ha, hx⟩⟩
    · exact .inl ⟨x, hx, hr⟩
    · exact .inr ⟨a, ha, x, hx, hr⟩

/-! ## Paths and walks -/

/-- Where control goes on from one block to another, it goes on in the graph from the
    first node of the one, through nodes of its block, to the first node of the other. -/
theorem controlWalk_into {a b : Nat} {c d : Chain} (hleads : Leads blocks a b) (hd : chains[a]? = some d)
    (hc : chains[b]? = some c) {walked : List NodeId} (hwalk : s.ControlWalk (d.first :: walked)) :
    ∃ between, s.ControlWalk (c.first :: (between ++ walked)) ∧ ∀ x ∈ between, Home chains x a := by
  obtain ⟨block, hblock, hexit⟩ := hleads
  obtain ⟨d', hd', hfinished⟩ := h.finishedBlock h.small hblock
  obtain rfl := Option.some.inj (hd.symm.trans hd')
  obtain ⟨-, target, htarget, hway⟩ := hfinished.of_mem_exits h.index_toInt hexit
  obtain ⟨c', hc', rfl⟩ := (h.planned.index b target).1 htarget
  obtain rfl := Option.some.inj (hc.symm.trans hc')
  have hdOf := h.planned.chainOf d (List.mem_of_getElem? hd)
  rcases hway with hmerge | ⟨y, hy, hnext⟩
  · -- The chain before ends at the merge that begins this block.
    have hother := hdOf.merge c.first hmerge
    have hmem : c.first ∈ blockMembers s d.first := by
      rw [h.scheduled.mem_blockMembers_iff hdOf.first_mem, ← hdOf.nodes_append, hmerge]
      simp
    simp only [isOtherMerge, Bool.and_eq_true, decide_eq_true_eq] at hother
    obtain ⟨between, hbetween, hown⟩ := h.scheduled.controlWalk hwalk (mem_blockMembers.1 hmem).2
      (Graph.isFixed_of_op (by rw [hother.2]; rfl))
    exact ⟨between, hbetween, fun x hx => h.home_of_mem hd (hown x hx).1 (hown x hx).2⟩
  · -- A branch of the block before leads here.
    have hsame : Graph.SameProgram s out := h.agree.sameProgram
    rw [hsame.controlSuccessors] at hnext
    obtain ⟨hmem, -⟩ := (hdOf.mem_nodes_iff h.scheduled).1 hy
    obtain ⟨between, hbetween, hown⟩ := h.scheduled.controlWalk hwalk (mem_blockMembers.1 hmem).2
      (Graph.isFixed_of_hasControlSuccessor hnext)
    refine ⟨y :: between, hbetween.step hnext, fun x hx => ?_⟩
    rcases List.mem_cons.1 hx with rfl | hx
    · exact (home_iff hd).2 hy
    · exact h.home_of_mem hd (hown x hx).1 (hown x hx).2

/-- Control came to a block of the listing as it comes to the first node of the block
    in the graph, through nodes of the blocks before. -/
theorem controlWalk {start : NodeId} (hop : s.op start = .start) (hstart : layout.index.lookup start = some entry)
    {b : Nat} {before : List Nat} (hentered : Entered blocks entry (b :: before)) {c : Chain}
    (hc : chains[b]? = some c) :
    ∃ earlier, s.ControlWalk (c.first :: earlier) ∧ ∀ x ∈ earlier, ∃ a ∈ before, Home chains x a := by
  generalize hpath : b :: before = path at hentered
  induction hentered generalizing b before c with
  | start _ =>
      cases hpath
      obtain ⟨c', hc', rfl⟩ := (h.planned.index entry start).1 hstart
      rw [hc, Option.some.injEq] at hc'
      subst hc'
      exact ⟨[], .start hop, by simp⟩
  | @step a _ earlier hprev hleads _ ih =>
      obtain ⟨rfl, rfl⟩ := List.cons.inj hpath
      obtain ⟨d, hd⟩ := h.exists_chain hleads
      obtain ⟨walked, hwalk, hhome⟩ := ih hd rfl
      obtain ⟨between, hinto, hbetween⟩ := h.controlWalk_into hleads hd hc hwalk
      refine ⟨between ++ walked, hinto, fun x hx => ?_⟩
      rcases List.mem_append.1 hx with hx | hx
      · exact ⟨a, List.mem_cons_self, hbetween x hx⟩
      · obtain ⟨a', ha', hx⟩ := hhome x hx
        exact ⟨a', List.mem_cons_of_mem a ha', hx⟩

/-! ## Order in a block -/

/-- An operand from the block of a node was computed before, unless the node begins the
    block. -/
theorem mem_done_of_input {b : Nat} {c : Chain} (hc : chains[b]? = some c) {done todo : List NodeId} {id : NodeId}
    (hsplit : c.nodes = done ++ id :: todo) (hne : id ≠ c.first) {e : Edge} (he : e ∈ s.inputs id)
    (hvalue : e.role.isValue = true) (hsource : e.source ∈ c.nodes) : e.source ∈ done := by
  have hcOf := h.planned.chainOf c (List.mem_of_getElem? hc)
  have hwhole : c.first :: order c.first = done ++ id :: (todo ++ c.merge?.toList) := by
    rw [← hcOf.nodes_append, hsplit]
    simp
  refine (h.scheduled.block c.first hcOf.first_mem).source_mem_before hwhole hne he (fun hlocal => ?_)
    ((hcOf.mem_nodes_iff h.scheduled).1 hsource).1
  simp [Role.isValue, hlocal, Role.Name.isValue] at hvalue

/-- A node that begins a block reads nothing from the block but from itself. -/
theorem eq_first_of_input {b : Nat} {c : Chain} (hc : chains[b]? = some c) {e : Edge}
    (he : e ∈ s.inputs c.first) (hvalue : e.role.isValue = true) (hsource : e.source ∈ c.nodes) :
    e.source = c.first := by
  have hcOf := h.planned.chainOf c (List.mem_of_getElem? hc)
  refine (h.scheduled.block c.first hcOf.first_mem).source_eq_first he ?_
    ((hcOf.mem_nodes_iff h.scheduled).1 hsource).1
  cases hrole : e.role.name <;> simp_all [Role.isValue, Role.Name.isValue, Role.isSchedule, Role.Name.isSchedule]

theorem isFixed_first {b : Nat} {c : Chain} (hc : chains[b]? = some c) : s.isFixed c.first = true :=
  isFixed_of_beginsBlock (mem_blockFirsts.1 (h.planned.chainOf c (List.mem_of_getElem? hc)).first_mem).2

/-- The block that an operand of a phi comes by ends at the merge of the phi. -/
theorem merge_of_comesBy {id : NodeId} {e : Edge} {b : Nat} (hcomes : ComesBy s layout id e b) {d : Chain}
    (hd : chains[b]? = some d) : ∃ merge, s.phiMerge? id = some merge ∧ d.merge? = some merge := by
  obtain ⟨-, n, merge, first, -, hmerge, hincoming, hfirst⟩ := hcomes
  obtain ⟨d', hd', rfl⟩ := (h.planned.index b first).1 hfirst
  rw [hd, Option.some.injEq] at hd'
  subst hd'
  obtain ⟨c, hc, hfirst', hends, -⟩ := h.planned.exists_flow hincoming
  rw [← h.planned.eq_of_first_eq hc (List.mem_of_getElem? hd) hfirst']
  exact ⟨merge, hmerge, hends⟩

/-- In the block of a merge nothing stands behind a finish. -/
theorem noFinish_of_merge {b : Nat} {c : Chain} (hc : chains[b]? = some c) {id merge : NodeId}
    (hmerge : s.phiMerge? id = some merge) (hfirst : c.first = merge) {done todo : List NodeId} {x : NodeId}
    (hsplit : c.nodes = done ++ x :: todo) : ∀ y ∈ done, s.op y ≠ .finish := by
  intro y hy hop
  obtain ⟨front, back, rfl⟩ := List.append_of_mem hy
  have hop' : s.op c.first = .merge := by
    rw [hfirst]
    simpa using List.find?_some hmerge
  have hne : y ≠ c.first := by
    rintro rfl
    rw [hop] at hop'
    cases hop'
  have hwhole : c.nodes = front ++ y :: (back ++ x :: todo) := by
    rw [hsplit]
    simp
  have hnil := ((h.planned.chainOf c (List.mem_of_getElem? hc)).eq_nil_of_endsBlock h.scheduled hwhole hne
    (.inr hop)).1
  simp at hnil

/-! ## Places and walks -/

/-- A node is in the block of its place. -/
theorem home_of_placedAt {b : Nat} {id last : NodeId} (hid : Home chains id b) (hlast : PlacedAt s id last) :
    Home chains last b := by
  cases hfixed : s.isFixed id with
  | true =>
      obtain rfl := hlast.unique ⟨[], .fixed hfixed⟩
      exact hid
  | false =>
      obtain ⟨c, hc, hmem⟩ := hid
      have hcOf := h.planned.chainOf c (List.mem_of_getElem? hc)
      obtain ⟨anchor, hplaced, ⟨hmember, hown⟩, -⟩ := h.scheduled.placedAt_of_inBlock hcOf.first_mem
        (mem_blockMembers.1 ((hcOf.mem_nodes_iff h.scheduled).1 hmem).1).2 hfixed
      rw [hlast.unique hplaced]
      exact h.home_of_mem hc hmember hown

/-- Control came to a fixed node of a block through nodes of the block and of those
    before. -/
theorem controlWalk_to {start : NodeId} (hop : s.op start = .start) (hstart : layout.index.lookup start = some entry)
    {b : Nat} {before : List Nat} (hentered : Entered blocks entry (b :: before)) {c : Chain}
    (hc : chains[b]? = some c) {last : NodeId} (hlast : last ∈ c.nodes) (hfixed : s.isFixed last = true) :
    ∃ earlier, s.ControlWalk (last :: earlier) ∧
      ∀ x ∈ earlier, (last ≠ c.first ∧ x ∈ c.nodes) ∨ ∃ a ∈ before, Home chains x a := by
  obtain ⟨earlier, hwalk, hhome⟩ := h.controlWalk hop hstart hentered hc
  by_cases hfirst : last = c.first
  · exact ⟨earlier, hfirst ▸ hwalk, fun x hx => .inr (hhome x hx)⟩
  · have hcOf := h.planned.chainOf c (List.mem_of_getElem? hc)
    obtain ⟨between, hbetween, hown⟩ := h.scheduled.controlWalk hwalk
      (mem_blockMembers.1 ((hcOf.mem_nodes_iff h.scheduled).1 hlast).1).2 hfixed
    refine ⟨between ++ earlier, hbetween, fun x hx => ?_⟩
    rcases List.mem_append.1 hx with hx | hx
    · exact .inl ⟨hfirst, (hcOf.mem_nodes_iff h.scheduled).2 (hown x hx)⟩
    · exact .inr (hhome x hx)

/-- Inside a block a value that comes from or goes to a floating node is computed before
    it is read. -/
theorem mem_done_of_floating {b : Nat} {c : Chain} (hc : chains[b]? = some c) {done todo : List NodeId}
    {id : NodeId} (hsplit : c.nodes = done ++ id :: todo) {e : Edge} (he : e ∈ s.inputs id)
    (hvalue : e.role.isValue = true) (hfloats : s.isFloating e.source = true ∨ s.isFloating id = true)
    (hsource : Home chains e.source b) : e.source ∈ done := by
  rw [home_iff hc] at hsource
  refine h.mem_done_of_input hc hsplit ?_ he hvalue hsource
  rintro rfl
  have hfirst := h.isFixed_first hc
  rw [h.eq_first_of_input hc he hvalue hsource] at hfloats
  simp [Graph.isFloating, hfirst] at hfloats

/-- A phi reads a value of its own block behind where it is computed. -/
theorem mem_done_of_phi {b : Nat} {c : Chain} (hc : chains[b]? = some c) {done todo : List NodeId} {id : NodeId}
    (hsplit : c.nodes = done ++ id :: todo) (hphi : s.op id = .phi) {e : Edge} (he : e ∈ s.inputs id) {came : Nat}
    (hcomes : ComesBy s layout id e came) (hsource : Home chains e.source b) : e.source ∈ done := by
  refine h.mem_done_of_input hc hsplit ?_ he hcomes.isValue ((home_iff hc).1 hsource)
  -- The block begins with the merge of the phi, not with the phi.
  rintro rfl
  obtain ⟨-, n, merge, first, -, hmerge, -, -⟩ := hcomes
  obtain ⟨b', c', -, hc', hfirst, hid⟩ := h.planned.phi_home h.scheduled hphi hmerge
  have hb : Home chains c.first b := (home_iff hc).2 (by rw [hsplit]; simp)
  obtain rfl := h.home_unique ((home_iff hc').2 hid) hb
  obtain rfl := Option.some.inj (hc.symm.trans hc')
  have hop : s.op c.first = .merge := by
    rw [hfirst]
    simpa using List.find?_some hmerge
  rw [hphi] at hop
  cases hop

/-! ## Well-placed values are written before they are read -/

section Sufficient

variable {g : Graph} (hfrom : ScheduledFrom g s)
include hfrom

/-- A floating value with one use is in the block of that use. -/
theorem home_eq_of_not_shared {id : NodeId} {e : Edge} (he : e ∈ s.inputs id) (hvalue : e.role.isValue = true)
    (hfloating : s.isFloating e.source = true) (hshared : ¬ Shared s e.source) {a b : Nat}
    (ha : Home chains e.source a) (hb : Home chains (s.useSite e) b) : a = b := by
  have hsite : s.useSite e ∈ s.useSites e.source :=
    List.mem_map.2 ⟨e, List.mem_filter.2 ⟨h.scheduled.consistent.mem_outputs he, hvalue⟩, rfl⟩
  have hall : ∀ x ∈ s.useSites e.source, x = s.useSite e := by
    intro x hx
    by_contra hne
    exact hshared ⟨x, hx, s.useSite e, hsite, hne⟩
  obtain ⟨last, hlast, hlastSite⟩ := hfrom.placedAt_only_use (h.scheduled.consistent.has_source he)
    (by simpa [Graph.isFloating] using hfloating) hall
  exact h.home_unique (h.home_of_placedAt ha hlast) (h.home_of_placedAt hb hlastSite)

variable {start : NodeId} (hop : s.op start = .start) (hstart : layout.index.lookup start = some entry)
include hop hstart

/-- The order of the graph decides about the values of fixed nodes: a walk to the node
    that reads one, or to its place if it floats, went by the value. -/
theorem fixed_operand_computed {b : Nat} {before : List Nat} (hentered : Entered blocks entry (b :: before))
    {c : Chain} (hc : chains[b]? = some c) {done todo : List NodeId} {id : NodeId}
    (hsplit : c.nodes = done ++ id :: todo) (hphi : s.op id ≠ .phi) {e : Edge} (he : e ∈ s.inputs id)
    (hvalue : e.role.isValue = true) (hsource : s.isFixed e.source = true)
    (hreturns : s.isFloating id = true → ¬ Returns s) :
    e.source ∈ done ∨ ∃ a ∈ before, Home chains e.source a := by
  have hmem : id ∈ c.nodes := by
    rw [hsplit]
    simp
  have htarget : e.target = id := h.scheduled.consistent.target_eq id e he
  cases hfixed : s.isFixed id with
  | true =>
      -- A fixed node is read from where it stands: every walk to it went by the value.
      have hsite : s.useSite e = id := by
        rw [Graph.useSite_eq_target (by rw [htarget]; exact hphi), htarget]
      obtain ⟨earlier, hwalk, hhome⟩ := h.controlWalk_to hop hstart hentered hc hmem hfixed
      have hwent := hfrom.fixed_before hsource (h.scheduled.consistent.mem_outputs he) hvalue
        (by rw [hsite]; exact hwalk)
      have hearlier := hwent.resolve_right fun hcase => hphi (htarget ▸ hcase.1)
      rcases hhome e.source hearlier with ⟨hne, hin⟩ | hin
      · exact .inl (h.mem_done_of_input hc hsplit hne he hvalue hin)
      · exact .inr hin
  | false =>
      -- A floating one is placed at a fixed node, and it is the walks to this node that count.
      have hfloating : s.isFloating id = true := by simp [Graph.isFloating, hfixed]
      have hdone : e.source ∈ c.nodes → e.source ∈ done := fun hin =>
        h.mem_done_of_floating hc hsplit he hvalue (.inr hfloating) ⟨c, hc, hin⟩
      obtain ⟨last, hlast, hbehind⟩ := hfrom.floating_behind h.scheduled.consistent (hreturns hfloating) hfixed he
        hvalue hsource
      have hin := (home_iff hc).1 (h.home_of_placedAt ((home_iff hc).2 hmem) hlast)
      obtain ⟨earlier, hwalk, hhome⟩ := h.controlWalk_to hop hstart hentered hc hin hlast.isFixed
      rcases List.mem_cons.1 (hbehind earlier hwalk) with hsame | hearlier
      · exact .inl (hdone (hsame ▸ hin))
      · rcases hhome e.source hearlier with ⟨-, hin⟩ | hin
        · exact .inl (hdone hin)
        · exact .inr hin

/-- A value that its anchors do not decide about is computed on the way to its use. -/
theorem computed_of_useSite {b : Nat} {before : List Nat} (hentered : Entered blocks entry (b :: before))
    {id : NodeId} {e : Edge} (he : e ∈ s.inputs id) (hvalue : e.role.isValue = true) (hphi : s.op id = .phi)
    (hsite : Home chains (s.useSite e) b) (hshared : s.isFloating e.source = true → ¬ Shared s e.source) {a : Nat}
    (ha : Home chains e.source a) : ∃ a' ∈ b :: before, Home chains e.source a' := by
  cases hfloating : s.isFloating e.source with
  | true =>
      obtain rfl := h.home_eq_of_not_shared hfrom he hvalue hfloating (hshared hfloating) ha hsite
      exact ⟨a, List.mem_cons_self, ha⟩
  | false =>
      have ⟨d, hd, hin⟩ := hsite
      have htarget : e.target = id := h.scheduled.consistent.target_eq id e he
      obtain ⟨earlier, hwalk, hhome⟩ := h.controlWalk_to hop hstart hentered hd hin
        (h.scheduled.consistent.isFixed_useSite (by rw [htarget]; exact hphi))
      rcases hfrom.fixed_before (by simpa [Graph.isFloating] using hfloating)
        (h.scheduled.consistent.mem_outputs he) hvalue hwalk with hearlier | ⟨-, hsame⟩
      · rcases hhome e.source hearlier with ⟨-, hnode⟩ | ⟨a', ha', hnode⟩
        · exact ⟨b, List.mem_cons_self, d, hd, hnode⟩
        · exact ⟨a', List.mem_cons_of_mem b ha', hnode⟩
      · exact ⟨b, List.mem_cons_self, hsame ▸ hsite⟩

variable (hplaced : WellPlaced s chains layout blocks entry)
include hplaced

/-- A node that is no phi finds its operands computed. -/
theorem operand_computed {b : Nat} {before : List Nat} (hentered : Entered blocks entry (b :: before)) {c : Chain}
    (hc : chains[b]? = some c) {done todo : List NodeId} {id : NodeId} (hsplit : c.nodes = done ++ id :: todo)
    (hfinish : ∀ x ∈ done, s.op x ≠ .finish) (hemits : emits s id = true) (hphi : s.op id ≠ .phi) {e : Edge}
    (he : e ∈ s.inputs id) (hoperand : IsOperand s id e) {a : Nat} (ha : Home chains e.source a) :
    e.source ∈ done ∨ ∃ a' ∈ before, Home chains e.source a' := by
  have hb : Home chains id b := ⟨c, hc, by rw [hsplit]; simp⟩
  have hvalue := hoperand.isValue
  by_cases hanchors : (s.isFloating e.source = true ∧ Shared s e.source) ∨ (s.isFloating id = true ∧ Returns s)
  · -- The anchors decide: the block of the value is this one or one before.
    have hmem : a ∈ b :: before := by
      rcases hplaced id e he b (.here hphi hemits hoperand hc hsplit hfinish)
        (hanchors.imp_right .inl) a ha with hid | hdom
      · rw [h.home_unique hid hb]
        exact List.mem_cons_self
      · exact dominates_iff.1 hdom before hentered
    rcases List.mem_cons.1 hmem with rfl | hmem
    · exact .inl (h.mem_done_of_floating hc hsplit he hvalue (hanchors.imp And.left And.left) ha)
    · exact .inr ⟨a, hmem, ha⟩
  · rw [not_or, not_and, not_and] at hanchors
    cases hfloating : s.isFloating e.source with
    | true =>
        have htarget : e.target = id := h.scheduled.consistent.target_eq id e he
        have hsite : s.useSite e = id := by
          rw [Graph.useSite_eq_target (by rw [htarget]; exact hphi), htarget]
        obtain rfl := h.home_eq_of_not_shared hfrom he hvalue hfloating (hanchors.1 hfloating) ha
          (by rw [hsite]; exact hb)
        exact .inl (h.mem_done_of_floating hc hsplit he hvalue (.inl hfloating) ha)
    | false =>
        exact h.fixed_operand_computed hfrom hop hstart hentered hc hsplit hphi he hvalue
          (by simpa [Graph.isFloating] using hfloating) hanchors.2

/-- A phi finds the operand for the block that control came from computed. -/
theorem phi_operand_computed {b came : Nat} {before : List Nat}
    (hentered : Entered blocks entry (b :: came :: before)) {c : Chain} (hc : chains[b]? = some c)
    {done todo : List NodeId} {id : NodeId} (hsplit : c.nodes = done ++ id :: todo) (hphi : s.op id = .phi)
    {e : Edge} (he : e ∈ s.inputs id) (hcomes : ComesBy s layout id e came) {a : Nat}
    (ha : Home chains e.source a) : e.source ∈ done ∨ ∃ a' ∈ came :: before, Home chains e.source a' := by
  have hb : Home chains id b := (home_iff hc).2 (by rw [hsplit]; simp)
  cases hentered with
  | @step _ _ _ hprev hleads _ =>
      obtain ⟨d, hd⟩ := h.exists_chain hleads
      by_cases hanchors : (s.isFloating e.source = true ∧ Shared s e.source) ∨ ¬ Home chains (s.useSite e) came
      · have hneeded : NeededIn s chains layout id e came := .before hphi hcomes hd (h.noFinish_of_leads hleads hd)
        rcases hplaced id e he came hneeded (hanchors.imp_right .inr) a ha with hid | hdom
        · -- The value is computed in the block of the phi, before it.
          obtain rfl := h.home_unique hid hb
          exact .inl (h.mem_done_of_phi hc hsplit hphi he hcomes ha)
        · exact .inr ⟨a, dominates_iff.1 hdom before hprev, ha⟩
      · rw [not_or, not_and, not_not] at hanchors
        exact .inr (h.computed_of_useSite hfrom hop hstart hprev he hcomes.isValue hphi hanchors.2 hanchors.1 ha)

theorem definesBeforeUse_of_wellPlaced : DefinesBeforeUse blocks entry := by
  intro path i rest written hreach r hr
  obtain ⟨b, before, block, ran, hstands⟩ := hreach.stands
  obtain rfl : path = b :: before := hstands.path_eq
  obtain ⟨c, hc, hfinished⟩ := h.finishedBlock h.small hstands.block_eq
  obtain ⟨done, id, hexec⟩ := hfinished.executes_of_reads h.index_toInt h.numbered hstands.split hstands.falls hr
  obtain ⟨todo, hsplit⟩ := hexec.nodes
  rw [h.mem_written_iff hreach hstands.block_eq hstands.split hexec]
  have hread := (hexec.reads _ r).1 hr
  have hfinish : ∀ x ∈ done, s.op x ≠ .finish := fun x hx => by
    rw [← h.agree.op]
    exact hexec.noFinish x hx
  -- The register was written if the node that it belongs to was computed on the way.
  unfold ReadBy at hread
  rw [h.agree.op] at hread
  split at hread
  · rename_i hphi
    obtain ⟨came, hcame, e, he, hcomes, hreg⟩ := hread
    rw [h.inputs_out] at he
    rw [h.comesBy_out] at hcomes
    obtain ⟨a, ha⟩ := h.exists_home hreg
    obtain ⟨before', rfl⟩ : ∃ before', before = came :: before' := by
      cases before with
      | nil => cases hcame
      | cons x before' =>
          cases hcame
          exact ⟨before', rfl⟩
    exact ⟨e.source, hreg, h.phi_operand_computed hfrom hop hstart hplaced hstands.entered hc hsplit hphi he
      hcomes ha⟩
  · rename_i hphi
    obtain ⟨e, he, hoperand, hreg⟩ := hread
    rw [h.inputs_out] at he
    rw [h.isOperand_out] at hoperand
    obtain ⟨a, ha⟩ := h.exists_home hreg
    have hemits : emits s id = true := by
      rw [← emits_agree h.agree]
      exact hexec.emits
    exact ⟨e.source, hreg, h.operand_computed hfrom hop hstart hplaced hstands.entered hc hsplit hfinish hemits
      hphi he hoperand ha⟩

end Sufficient

/-! ## Values that are written before they are read are well placed -/

section Necessary

variable (hdefines : DefinesBeforeUse blocks entry)
include hdefines

/-- On every path to a node that reads a value, the value was computed before: the
    node is reached, reads the register, and no other node writes it. -/
theorem computed_of_readBy {b : Nat} {before : List Nat} (hentered : Entered blocks entry (b :: before))
    {c : Chain} (hc : chains[b]? = some c) {done todo : List NodeId} {id : NodeId}
    (hsplit : c.nodes = done ++ id :: todo) (hfinish : ∀ x ∈ done, s.op x ≠ .finish) (hemits : emits s id = true)
    {e : Edge} (he : e ∈ s.inputs id) (hoperand : IsOperand s id e)
    (hread : ∀ r, registerOf out e.source = .ok r → ReadBy out layout id before.head? r) :
    e.source ∈ done ∨ ∃ a ∈ before, Home chains e.source a := by
  obtain ⟨block, hblock, hfinished⟩ := h.finished hc
  obtain ⟨ran, i, hexec⟩ := hfinished.executes h.index_toInt h.numbered hsplit
    (fun x hx => by rw [h.agree.op]; exact hfinish x hx) (by rw [emits_agree h.agree]; exact hemits)
  obtain ⟨rest, hinstrs⟩ := hexec.split
  obtain ⟨written, hreach⟩ := hentered.reaches block hblock
  rw [hinstrs] at hreach
  obtain ⟨written', hreach⟩ := hreach.pass hexec.falls
  obtain ⟨r, hr⟩ := hexec.supplied e (by rw [h.inputs_out]; exact he) ((h.isOperand_out id e).2 hoperand)
  have hwritten := hdefines _ i rest written' hreach r ((hexec.reads _ r).2 (hread r hr))
  obtain ⟨x, hx, hwhere⟩ := (h.mem_written_iff hreach hblock hinstrs hexec).1 hwritten
  rwa [h.registerOf_inj h.scheduled h.fresh h.small hx hr] at hwhere

theorem wellPlaced_of_definesBeforeUse : WellPlaced s chains layout blocks entry := by
  intro id e he b hneeded _ a ha
  cases hneeded with
  | @here c done todo hphi hemits hoperand hc hsplit hfinish =>
      refine .inr (dominates_iff.2 fun before hentered => ?_)
      have hread : ∀ r, registerOf out e.source = .ok r → ReadBy out layout id before.head? r := by
        intro r hr
        rw [ReadBy, h.agree.op, if_neg hphi]
        exact ⟨e, by rw [h.inputs_out]; exact he, (h.isOperand_out id e).2 hoperand, hr⟩
      rcases h.computed_of_readBy hdefines hentered hc hsplit hfinish hemits he hoperand hread with
        hdone | ⟨a', ha', hsource⟩
      · have hb : Home chains e.source b := ⟨c, hc, by rw [hsplit]; simp [hdone]⟩
        rw [h.home_unique ha hb]
        exact List.mem_cons_self
      · rw [h.home_unique ha hsource]
        exact List.mem_cons_of_mem b ha'
  | @before d hphi hcomes hd hfinish =>
      by_cases hsame : Home chains id a
      · exact .inl hsame
      · refine .inr (dominates_iff.2 fun before hentered => ?_)
        obtain ⟨merge, hmerge, hends⟩ := h.merge_of_comesBy hcomes hd
        obtain ⟨t, c, ht, hc, hfirst, hid⟩ := h.planned.phi_home h.scheduled hphi hmerge
        obtain ⟨done, todo, hsplit⟩ := List.append_of_mem hid
        -- The path goes on into the block of the phi.
        have hleads : Leads blocks b t := by
          obtain ⟨block, hblock, hfinished⟩ := h.finished hd
          refine ⟨block, hblock, hfinished.mem_exits_merge h.index_toInt hends (fun y hy => ?_) ht⟩
          rw [h.agree.op]
          exact hfinish y hy
        obtain ⟨hlt, -⟩ := List.getElem?_eq_some_iff.1 hc
        have hinto := hentered.step hleads (h.length_eq ▸ hlt)
        have hread : ∀ r, registerOf out e.source = .ok r → ReadBy out layout id (b :: before).head? r := by
          intro r hr
          rw [ReadBy, h.agree.op, if_pos hphi]
          exact ⟨b, rfl, e, by rw [h.inputs_out]; exact he, (h.comesBy_out id e b).2 hcomes, hr⟩
        rcases h.computed_of_readBy hdefines hinto hc hsplit (h.noFinish_of_merge hc hmerge hfirst hsplit)
          (by simp [emits, hphi]) he (isOperand_of_comesBy hphi hcomes) hread with hdone | ⟨a', ha', hsource⟩
        · have hb : Home chains e.source t := ⟨c, hc, by rw [hsplit]; simp [hdone]⟩
          rw [h.home_unique ha hb] at hsame
          exact absurd ⟨c, hc, hid⟩ hsame
        · rw [h.home_unique ha hsource]
          exact ha'

end Necessary

/-- Values are written before they are read exactly if they are well placed. -/
theorem definesBeforeUse_iff {g : Graph} (hfrom : ScheduledFrom g s) {start : NodeId} (hop : s.op start = .start)
    (hstart : layout.index.lookup start = some entry) :
    DefinesBeforeUse blocks entry ↔ WellPlaced s chains layout blocks entry :=
  ⟨h.wellPlaced_of_definesBeforeUse, h.definesBeforeUse_of_wellPlaced hfrom hop hstart⟩

end FreshListing

end SeaOfNodes.Listing
