/-
  SeaOfNodes.Proofs.Graph.Conversions

  Conversions on value edges.  Nodes of one operand are spliced onto edges, one after the
  other, until every edge of a kind is read through a conversion of its own; all other
  edges stand where they stood, and control leads where it led.  Beside it, what
  sequencing and renaming do to the operands of a node and to where control leads.
-/
import SeaOfNodes.Proofs.Except
import SeaOfNodes.Proofs.Graph.Rewrites
import Mathlib.Logic.Relation

namespace SeaOfNodes.Graph

open Relation

/-- The edges that bring a node its values, in the order of its inputs. -/
def operands (g : Graph) (id : NodeId) : List Edge := g.inputsWhere id Role.isValue

/-- Control leads from one node to another. -/
def LeadsTo (g : Graph) : NodeId → NodeId → Prop := TransGen fun a b => b ∈ g.controlSuccessors a

theorem LeadsTo.map {g g' : Graph} {f : NodeId → NodeId}
    (hstep : ∀ a b, b ∈ g.controlSuccessors a → f b ∈ g'.controlSuccessors (f a)) {a b : NodeId} (h : g.LeadsTo a b) :
    g'.LeadsTo (f a) (f b) :=
  TransGen.lift f hstep a b h

theorem mem_operands {g : Graph} {id : NodeId} {e : Edge} :
    e ∈ g.operands id ↔ e ∈ g.inputs id ∧ e.role.isValue = true := List.mem_filter

theorem Filed.mem_controlSuccessors {g : Graph} (h : g.Filed) {a b : NodeId} :
    b ∈ g.controlSuccessors a ↔ ∃ role : Role, role.isControl = true ∧ 0 < g.multiplicity ⟨a, b, role⟩ := by
  simp only [controlSuccessors, outputsWhere, List.mem_map, List.mem_filter, multiplicity_pos]
  constructor
  · rintro ⟨e, ⟨he, hcontrol⟩, rfl⟩
    have hsource := h.source_eq a e he
    subst hsource
    exact ⟨e.role, hcontrol, he⟩
  · rintro ⟨role, hcontrol, hmem⟩
    exact ⟨⟨a, b, role⟩, ⟨hmem, hcontrol⟩, rfl⟩

theorem Filed.hasControlOutput_eq_false_iff {g : Graph} (h : g.Filed) {n : NodeId} :
    g.hasControlOutput n = false ↔ g.controlSuccessors n = [] := by
  rw [← Bool.not_eq_true, h.hasControlOutput_iff, List.eq_nil_iff_forall_not_mem]
  simp only [h.mem_controlSuccessors]
  exact not_exists

theorem lt_size_of_has {g : Graph} {id : NodeId} (h : g.has id = true) : id < Int.ofNat g.arena.size := by
  obtain ⟨i, hi, rfl⟩ := exists_slot_of_has h
  exact Int.ofNat_lt.2 hi

section Consistent

variable {g : Graph} (hg : g.Consistent)
include hg

theorem Consistent.target_eq_of_mem_operands {id : NodeId} {e : Edge} (he : e ∈ g.operands id) : e.target = id :=
  hg.target_eq id e (mem_operands.1 he).1

theorem Consistent.has_of_mem_operands {id : NodeId} {e : Edge} (he : e ∈ g.operands id) :
    g.has e.source = true ∧ g.has e.target = true := by
  obtain ⟨hmem, -⟩ := mem_operands.1 he
  refine ⟨hg.has_source hmem, ?_⟩
  rw [hg.target_eq id e hmem]
  exact has_of_mem_inputs hmem

theorem Consistent.multiplicity_of_mem_operands {id : NodeId} {e : Edge} (he : e ∈ g.operands id) :
    0 < g.multiplicity e :=
  multiplicity_pos.2 (hg.mem_outputs (mem_operands.1 he).1)

end Consistent

/-! ## Growing graphs -/

/-- A graph keeps its nodes, and handles once in use are not used again. -/
structure Grows (g g' : Graph) : Prop where
  size : g.arena.size ≤ g'.arena.size
  has : ∀ id, g.has id = true → g'.has id = true
  gone : ∀ id, id < Int.ofNat g.arena.size → g.has id = false → g'.has id = false
  op : ∀ id, g.has id = true → g'.op id = g.op id
  props : ∀ id, g.has id = true → g'.props id = g.props id

theorem Grows.refl (g : Graph) : Grows g g :=
  ⟨Nat.le_refl _, fun _ => id, fun _ _ => id, fun _ _ => rfl, fun _ _ => rfl⟩

theorem Grows.trans {g s t : Graph} (h : Grows g s) (h' : Grows s t) : Grows g t where
  size := Nat.le_trans h.size h'.size
  has id hid := h'.has id (h.has id hid)
  gone id hlt hid := h'.gone id (Int.lt_of_lt_of_le hlt (Int.ofNat_le.2 h.size)) (h.gone id hlt hid)
  op id hid := (h'.op id (h.has id hid)).trans (h.op id hid)
  props id hid := (h'.props id (h.has id hid)).trans (h.props id hid)

theorem Spliced.grows {g g' : Graph} {e : Edge} {mid : NodeId} (h : Spliced g g' e mid) : Grows g g' where
  size := by
    rw [h.size]
    exact Nat.le_succ _
  has id hid := (h.has id).2 (.inl hid)
  gone id hlt hid := by
    rw [← Bool.not_eq_true, h.has, not_or]
    refine ⟨by simp [hid], ?_⟩
    rintro rfl
    rw [h.mid_eq] at hlt
    exact Int.lt_irrefl _ hlt
  op id hid := h.op id (h.ne_mid hid)
  props id hid := h.props id (h.ne_mid hid)

theorem SameNodes.grows {g g' : Graph} (h : SameNodes g g') : Grows g g' where
  size := Nat.le_of_eq h.size.symm
  has id hid := (h.has id).trans hid
  gone id _ hid := (h.has id).trans hid
  op id _ := h.op id
  props id _ := h.props id

/-! ## Operands from one graph to the next -/

/-- The operands of every node are those of the node that it has become, with the same
    roles and in the same order, and what comes in at a place stands for what came in
    there. -/
def Refed (g g' : Graph) (named : NodeId → NodeId) (feeds : NodeId → NodeId → NodeId → Prop) : Prop :=
  ∀ id, g.has id = true →
    List.Forall₂ (fun e e' => e'.role = e.role ∧ feeds id e.source e'.source) (g.operands id) (g'.operands (named id))

section Refed

variable {g s t : Graph} {named named' : NodeId → NodeId} {feeds feeds' : NodeId → NodeId → NodeId → Prop}

theorem Refed.trans (h : Refed g s named feeds) (h' : Refed s t named' feeds')
    (hlive : ∀ id, g.has id = true → s.has (named id) = true) :
    Refed g t (named' ∘ named) fun id a c => ∃ b, feeds id a b ∧ feeds' (named id) b c := by
  intro id hid
  refine (forall₂_comp (h id hid) (h' (named id) (hlive id hid))).imp ?_
  rintro e e'' ⟨e', ⟨hrole, hfeeds⟩, hrole', hfeeds'⟩
  exact ⟨hrole'.trans hrole, e'.source, hfeeds, hfeeds'⟩

/-- Only what comes from nodes in use matters. -/
theorem Refed.imp (hg : g.Consistent) (h : Refed g s named feeds)
    (himp : ∀ id a b, g.has id = true → g.has a = true → feeds id a b → feeds' id a b) : Refed g s named feeds' := by
  intro id hid
  refine forall₂_imp_of_mem (h id hid) fun e he e' hee' => ⟨hee'.1, ?_⟩
  exact himp id e.source e'.source hid (hg.has_of_mem_operands he).1 hee'.2

theorem Refed.of_eq (h : ∀ id, s.operands id = g.operands id) : Refed g s id fun _ a b => b = a := by
  intro id _
  rw [id_eq, h id]
  exact List.forall₂_same.2 fun e _ => ⟨rfl, rfl⟩

theorem Renamed.refed {old new : NodeId} (h : Renamed g s old new) :
    Refed g s (rename old new) fun _ a b => b = rename old new a := by
  intro id hid
  have hinputs : s.operands (rename old new id) = (g.operands id).map (renameEdge old new) := by
    rw [operands, inputsWhere, h.inputs _ (h.rename_ne_old id), rename_rename_of_ne (h.ne_new hid), List.filter_map]
    rfl
  rw [hinputs, List.forall₂_map_right_iff]
  exact List.forall₂_same.2 fun e _ => ⟨rfl, rfl⟩

end Refed

/-! ## Conversions -/

/-- A node of one operand that hands on what it reads in another form. -/
structure Conversion (g : Graph) (op : Op) (mid source : NodeId) : Prop where
  live : g.has mid = true
  op_eq : g.op mid = op
  props_eq : g.props mid = .empty
  operands_eq : g.operands mid = [⟨source, mid, .value⟩]

/-- A conversion that keeps its name reads what its operand has become. -/
theorem Conversion.refed {g s : Graph} {named : NodeId → NodeId} {feeds : NodeId → NodeId → NodeId → Prop} {op : Op}
    {mid source : NodeId} (h : g.Conversion op mid source) (hs : s.Consistent) (hrefed : Refed g s named feeds)
    (hlive : s.has mid = true) (hname : named mid = mid) (hop : s.op mid = g.op mid)
    (hprops : s.props mid = g.props mid) : ∃ source', s.Conversion op mid source' ∧ feeds mid source source' := by
  have hoperands := hrefed mid h.live
  rw [hname, h.operands_eq] at hoperands
  cases hedges : s.operands mid with
  | nil =>
      rw [hedges] at hoperands
      cases hoperands
  | cons e rest =>
      rw [hedges] at hoperands
      obtain ⟨⟨hrole, hfeeds⟩, hrest⟩ := List.forall₂_cons.1 hoperands
      have htarget : e.target = mid := hs.target_eq_of_mem_operands (by rw [hedges]; exact List.mem_cons_self)
      refine ⟨e.source, ⟨hlive, hop.trans h.op_eq, hprops.trans h.props_eq, ?_⟩, hfeeds⟩
      rw [hedges, List.forall₂_nil_left_iff.1 hrest, ← htarget, ← show e.role = .value from hrole]

/-- The operands of a node once an edge is spliced. -/
theorem Spliced.operands_eq {g g' : Graph} {e : Edge} {mid : NodeId} (h : Spliced g g' e mid)
    (hvalue : e.role.isValue = true) {id : NodeId} (hid : id ≠ mid) :
    g'.operands id = if id = e.target then replaceFirst e (spliceTail e mid) (g.operands id) else g.operands id := by
  unfold operands inputsWhere
  rw [h.inputs id hid]
  split
  · apply filter_replaceFirst
    · exact hvalue
    · exact hvalue
  · rfl

theorem Spliced.conversion {g g' : Graph} {e : Edge} {mid : NodeId} (h : Spliced g g' e mid)
    (hvalue : e.role.isValue = true) {op : Op} (hop : g'.op mid = op) (hprops : g'.props mid = .empty) :
    g'.Conversion op mid e.source := by
  refine ⟨(h.has mid).2 (.inr rfl), hop, hprops, ?_⟩
  rw [operands, inputsWhere, h.newInputs, spliceHead_of_isValue hvalue]
  rfl

/-- What holds while conversions are spliced onto edges: the edges done with have one
    fewer copy each, and stand where they stood or come from a conversion. -/
structure Converting (op : Op) (g : Graph) (front : List Edge) (s : Graph) : Prop where
  consistent : s.Consistent
  grows : Grows g s
  operands : ∀ id, g.has id = true → List.Forall₂ (fun e e' => e'.role = e.role ∧
    (e' = e ∨ e ∈ front ∧ g.has e'.source = false ∧ s.Conversion op e'.source e.source)) (g.operands id) (s.operands id)
  balance : ∀ e, g.has e.source = true → g.has e.target = true → s.multiplicity e + front.count e = g.multiplicity e
  control : ∀ x, x.role.isControl = true → (0 < s.multiplicity x ↔ 0 < g.multiplicity x)

theorem Converting.start (op : Op) {g : Graph} (hg : g.Consistent) : Converting op g [] g := by
  refine ⟨hg, .refl g, fun id _ => ?_, fun e _ _ => rfl, fun _ _ => Iff.rfl⟩
  exact List.forall₂_same.2 fun e _ => ⟨rfl, .inl rfl⟩

section Step

variable {op : Op} {g s s' : Graph} {e : Edge} {mid : NodeId} (hsplice : Spliced s s' e mid)
  (hvalue : e.role.isValue = true) (htarget : g.has e.target = true)
include hsplice hvalue htarget

/-- A conversion made before reads what it read, as the edge spliced leads to an old node. -/
theorem Conversion.splice {c a : NodeId} (hc : s.Conversion op c a) (hfresh : g.has c = false) :
    s'.Conversion op c a := by
  have hne := hsplice.ne_mid hc.live
  refine ⟨hsplice.grows.has c hc.live, ?_, ?_, ?_⟩
  · rw [hsplice.op c hne, hc.op_eq]
  · rw [hsplice.props c hne, hc.props_eq]
  · rw [hsplice.operands_eq hvalue hne, if_neg, hc.operands_eq]
    rintro rfl
    rw [htarget] at hfresh
    cases hfresh

theorem Converting.step {front : List Edge} (h : Converting op g front s) (hs' : s'.Consistent)
    (hsource : g.has e.source = true) (hop : s'.op mid = op) (hprops : s'.props mid = .empty) :
    Converting op g (front ++ [e]) s' := by
  have hnew : ∀ id, g.has id = true → id ≠ mid := fun id hid => hsplice.ne_mid (h.grows.has id hid)
  have hmid : g.has mid = false := by
    rw [← Bool.not_eq_true]
    exact fun hlive => hnew mid hlive rfl
  refine ⟨hs', h.grows.trans hsplice.grows, fun id hid => ?_, fun x hx hx' => ?_, fun x hx => ?_⟩
  · -- The first copy of the edge is read through the new node; what was converted before, through
    -- the node that converted it.
    have hkept := (h.operands id hid).imp (S := fun a a' => a'.role = a.role ∧ (a' = a ∨ a ∈ front ++ [e] ∧
        g.has a'.source = false ∧ s'.Conversion op a'.source a.source)) fun a a' haa' => ?_
    · rw [hsplice.operands_eq hvalue (hnew id hid)]
      split
      · refine forall₂_replaceFirst hkept fun a ha => ?_
        obtain ⟨hrole, rfl | ⟨-, hfresh, -⟩⟩ := ha
        · refine ⟨rfl, .inr ⟨?_, hmid, hsplice.conversion hvalue hop hprops⟩⟩
          exact List.mem_append_right front (List.mem_singleton.2 rfl)
        · rw [hsource] at hfresh
          cases hfresh
      · exact hkept
    · refine ⟨haa'.1, haa'.2.imp_right fun ⟨hmem, hfresh, hconv⟩ => ?_⟩
      exact ⟨List.mem_append_left _ hmem, hfresh, hconv.splice hsplice hvalue htarget hfresh⟩
  · -- The two edges of the new node are between no two old ones.
    have hhead : x ≠ spliceHead e mid := by
      rintro rfl
      rw [spliceHead_of_isValue hvalue] at hx'
      exact hnew _ hx' rfl
    have htail : x ≠ spliceTail e mid := by
      rintro rfl
      exact hnew _ hx rfl
    have hbefore := h.balance x hx hx'
    have hstep := hsplice.balance x hhead htail
    rw [List.count_append]
    omega
  · rw [hsplice.control_iff hvalue hx, h.control x hx]

end Step

/-- Every edge that a test picks is read through a conversion, and the other edges stand
    where they stood. -/
structure Converted (op : Op) (g s : Graph) (picks : NodeId → NodeId → Prop) : Prop where
  consistent : s.Consistent
  grows : Grows g s
  refed : Refed g s id fun id a b => (picks id a ∧ s.Conversion op b a) ∨ (¬ picks id a ∧ b = a)
  leadsTo : ∀ a b, s.LeadsTo a b ↔ g.LeadsTo a b

/-- All edges of a kind are converted when each copy of them had its turn. -/
theorem Converting.converted {op : Op} {g s : Graph} {edges : List Edge} (h : Converting op g edges s)
    (hg : g.Consistent) {picks : NodeId → NodeId → Prop}
    (hmem : ∀ e, e.role.isValue = true → (e ∈ edges ↔ 0 < g.multiplicity e ∧ picks e.target e.source))
    (hcount : ∀ e ∈ edges, edges.count e = g.multiplicity e) : Converted op g s picks := by
  refine ⟨h.consistent, h.grows, fun id hid => ?_, fun a b => ?_⟩
  · refine forall₂_imp_of_mem_mem (h.operands id hid) fun e he e' he' ⟨hrole, hfrom⟩ => ⟨hrole, ?_⟩
    obtain ⟨hsource, htarget⟩ := hg.has_of_mem_operands he
    have hpicks : e ∈ edges ↔ picks id e.source := by
      rw [hmem e (mem_operands.1 he).2, hg.target_eq_of_mem_operands he]
      exact and_iff_right (hg.multiplicity_of_mem_operands he)
    rcases hfrom with rfl | ⟨hfront, -, hconv⟩
    · -- An edge that is still there was not converted, as no copy of those is left.
      refine .inr ⟨fun hpick => ?_, rfl⟩
      have hleft := h.consistent.multiplicity_of_mem_operands he'
      have hbalance := h.balance e' hsource htarget
      have hall := hcount e' (hpicks.2 hpick)
      omega
    · exact .inl ⟨hpicks.1 hfront, hconv⟩
  · have hsame : (fun a b => b ∈ s.controlSuccessors a) = fun a b => b ∈ g.controlSuccessors a := by
      funext a b
      rw [h.consistent.mem_controlSuccessors, hg.mem_controlSuccessors]
      exact propext (exists_congr fun role => and_congr_right fun hrole => h.control ⟨a, b, role⟩ hrole)
    rw [LeadsTo, hsame, LeadsTo]

/-! ## Where control leads -/

/-- A node out of control flow that is put between two nodes, the first of which led to
    the second, makes no other difference to where control leads. -/
theorem Sequenced.leadsTo_iff {g g' : Graph} {before mid after : NodeId} {role : Role}
    (h : Sequenced g g' before mid after) (hg : g.Consistent) (hg' : g'.Consistent) (hrole : role.isControl = true)
    (hnext : 0 < g.multiplicity ⟨before, after, role⟩) (hfree : ¬ g.Controlled mid) {a b : NodeId} (ha : a ≠ mid)
    (hb : b ≠ mid) : g'.LeadsTo a b ↔ g.LeadsTo a b := by
  have hedge : after ∈ g.controlSuccessors before := hg.mem_controlSuccessors.2 ⟨role, hrole, hnext⟩
  have hold : ∀ {x y : NodeId}, y ∈ g.controlSuccessors x → x ≠ mid ∧ y ≠ mid := by
    intro x y hy
    obtain ⟨role', hrole', hpos⟩ := hg.mem_controlSuccessors.1 hy
    constructor
    · rintro rfl
      exact hfree (.inr ⟨y, role', hrole', hpos⟩)
    · rintro rfl
      exact hfree (.inl ⟨x, role', hrole', hpos⟩)
  have hstep : ∀ {x y : NodeId}, y ∈ g'.controlSuccessors x →
      y ∈ g.controlSuccessors x ∨ x = before ∧ y = mid ∨ x = mid ∧ y = after := by
    intro x y hy
    obtain ⟨role', hrole', hpos⟩ := hg'.mem_controlSuccessors.1 hy
    simp only [h.edge, Edge.mk.injEq] at hpos
    rcases hpos with hpos | ⟨rfl, rfl, -⟩ | ⟨rfl, rfl, -⟩
    · exact .inl (hg.mem_controlSuccessors.2 ⟨role', hrole', hpos⟩)
    · exact .inr (.inl ⟨rfl, rfl⟩)
    · exact .inr (.inr ⟨rfl, rfl⟩)
  constructor
  · intro hleads
    -- A path that has come to the new node came to the one before it.
    have hpath : ∀ y, g'.LeadsTo a y →
        (y ≠ mid → g.LeadsTo a y) ∧ (y = mid → ReflTransGen (fun x y => y ∈ g.controlSuccessors x) a before) := by
      intro y hy
      induction hy with
      | @single y hy =>
          rcases hstep hy with hy | ⟨rfl, rfl⟩ | ⟨hx, -⟩
          · exact ⟨fun _ => .single hy, fun hmid => absurd hmid (hold hy).2⟩
          · exact ⟨fun hmid => absurd rfl hmid, fun _ => .refl⟩
          · exact absurd hx ha
      | @tail x y _ hy ih =>
          rcases hstep hy with hy | ⟨rfl, rfl⟩ | ⟨rfl, rfl⟩
          · exact ⟨fun _ => (ih.1 (hold hy).1).tail hy, fun hmid => absurd hmid (hold hy).2⟩
          · exact ⟨fun hmid => absurd rfl hmid, fun _ => (ih.1 (hold hedge).1).to_reflTransGen⟩
          · exact ⟨fun _ => TransGen.tail' (ih.2 rfl) hedge, fun hmid => absurd hmid (hold hedge).2⟩
    exact (hpath b hleads).1 hb
  · intro hleads
    refine LeadsTo.map (f := id) (fun x y hy => ?_) hleads
    obtain ⟨role', hrole', hpos⟩ := hg.mem_controlSuccessors.1 hy
    exact hg'.mem_controlSuccessors.2 ⟨role', hrole', (h.edge _).2 (.inl hpos)⟩

/-- Several nodes are put in control flow, and make no other difference. -/
structure Threaded (g g' : Graph) (mids : List NodeId) : Prop where
  nodes : SameNodes g g'
  operands : ∀ id, g'.operands id = g.operands id
  leadsTo : ∀ a b, a ∉ mids → b ∉ mids → (g'.LeadsTo a b ↔ g.LeadsTo a b)

theorem Threaded.refl (g : Graph) (mids : List NodeId) : Threaded g g mids :=
  ⟨.refl g, fun _ => rfl, fun _ _ _ _ => Iff.rfl⟩

theorem Threaded.conversion {g g' : Graph} {mids : List NodeId} (h : Threaded g g' mids) {op : Op} {c a : NodeId}
    (hc : g.Conversion op c a) : g'.Conversion op c a :=
  ⟨(h.nodes.has c).trans hc.live, (h.nodes.op c).trans hc.op_eq, (h.nodes.props c).trans hc.props_eq,
    (h.operands c).trans hc.operands_eq⟩

theorem Threaded.cons {g s g' : Graph} {mid : NodeId} {rest : List NodeId} {before after : NodeId} {role : Role}
    (h : Threaded s g' rest) (hg : g.Consistent) (hs : s.Consistent) (hsequence : Sequenced g s before mid after)
    (hrole : role.isControl = true) (hnext : 0 < g.multiplicity ⟨before, after, role⟩) (hfree : ¬ g.Controlled mid) :
    Threaded g g' (mid :: rest) := by
  refine ⟨hsequence.nodes.trans h.nodes, fun id => (h.operands id).trans (hsequence.operands id), fun a b ha hb => ?_⟩
  rw [List.mem_cons, not_or] at ha hb
  rw [h.leadsTo a b ha.2 hb.2, hsequence.leadsTo_iff hg hs hrole hnext hfree ha.1 hb.1]

theorem Renamed.leadsTo_iff {g g' : Graph} {old new : NodeId} (h : Renamed g g' old new) (hg : g.Consistent)
    (hg' : g'.Consistent) {a b : NodeId} (ha : g.has a = true) (hb : g.has b = true) :
    g'.LeadsTo (rename old new a) (rename old new b) ↔ g.LeadsTo a b := by
  constructor
  · intro hleads
    have hback : g.LeadsTo (rename new old (rename old new a)) (rename new old (rename old new b)) := by
      refine LeadsTo.map (fun x y hy => ?_) hleads
      obtain ⟨role, hrole, hpos⟩ := hg'.mem_controlSuccessors.1 hy
      exact hg.mem_controlSuccessors.2 ⟨role, hrole, ((h.edge _).1 hpos).2.2⟩
    rw [rename_rename_of_ne (h.ne_new ha), rename_rename_of_ne (h.ne_new hb)] at hback
    exact hback
  · refine LeadsTo.map fun x y hy => ?_
    obtain ⟨role, hrole, hpos⟩ := hg.mem_controlSuccessors.1 hy
    exact hg'.mem_controlSuccessors.2 ⟨role, hrole, h.multiplicity_renameEdge hg hpos⟩

end SeaOfNodes.Graph
