/-
  SeaOfNodes.Proofs.Schedule.HomeBlocks

  Blocks of graphs whose floating nodes have homes.  A floating node belongs to the block
  of its home, so what the blocks are is decided by control alone.  Their members can be
  put in order by the numbers of their homes, those that share one by their turns and
  before the home itself.  So chaining fails only where control parts the fixed nodes
  badly, or where a value would have to come before the first node of its block.
-/
import SeaOfNodes.Proofs.Graph.UseSites
import SeaOfNodes.Proofs.Pass.Unannotated
import SeaOfNodes.Proofs.Schedule.Homes
import SeaOfNodes.Proofs.Schedule.LeastOrder

namespace SeaOfNodes.Schedule

open Relation

/-! ## Lists in the order of keys -/

/-- Nothing comes after the last node. -/
theorem not_precedes_of_getLast? {chain : List NodeId} {a b : NodeId} (hnodup : chain.Nodup)
    (hlast : chain.getLast? = some a) (hb : b ∈ chain) : ¬ Precedes chain a b := by
  obtain ⟨front, rfl⟩ := List.getLast?_eq_some_iff.1 hlast
  have ha : a ∉ front := fun ha => (List.nodup_append.1 hnodup).2.2 a ha a (List.mem_singleton_self a) rfl
  have hbound := List.idxOf_lt_length_of_mem hb
  rw [List.length_append, List.length_singleton] at hbound
  rw [Precedes, List.idxOf_append_of_notMem ha, List.idxOf_cons_self]
  omega

section Keys

variable {α : Type} [LinearOrder α] (key : NodeId → α)

/-- Nodes can be put in the order of their keys. -/
theorem exists_perm_pairwise_key (l : List NodeId) : ∃ sorted : List NodeId, sorted.Perm l ∧
    sorted.Pairwise fun a b => key a ≤ key b := by
  refine ⟨l.mergeSort fun a b => decide (key a ≤ key b), List.mergeSort_perm l _, ?_⟩
  have hsorted : (l.mergeSort fun a b => decide (key a ≤ key b)).Pairwise fun a b => decide (key a ≤ key b) = true :=
    List.pairwise_mergeSort
      (fun a b c hab hbc => by simpa using le_trans (of_decide_eq_true hab) (of_decide_eq_true hbc))
      (fun a b => by simpa using le_total (key a) (key b)) l
  exact hsorted.imp fun h => of_decide_eq_true h

variable {key} {sorted : List NodeId} (hsorted : sorted.Pairwise fun a b => key a ≤ key b)
include hsorted

theorem precedes_of_key_lt {a b : NodeId} (ha : a ∈ sorted) (hb : b ∈ sorted) (hlt : key a < key b) :
    Precedes sorted a b := by
  induction sorted with
  | nil => cases ha
  | cons x rest ih =>
      obtain ⟨hhead, hrest⟩ := List.pairwise_cons.1 hsorted
      have hbx : b ≠ x := by
        rintro rfl
        rcases List.mem_cons.1 ha with rfl | ha
        · exact lt_irrefl _ hlt
        · exact absurd (hhead a ha) (not_le_of_gt hlt)
      by_cases hax : a = x
      · rw [Precedes, hax, List.idxOf_cons_self, List.idxOf_cons_ne _ hbx.symm]
        exact Nat.succ_pos _
      · have htail := ih hrest ((List.mem_cons.1 ha).resolve_left hax) ((List.mem_cons.1 hb).resolve_left hbx)
        rw [Precedes] at htail ⊢
        rw [List.idxOf_cons_ne _ (Ne.symm hax), List.idxOf_cons_ne _ hbx.symm]
        exact Nat.succ_lt_succ htail

/-- The node with the highest key is the last. -/
theorem getLast?_of_key_lt {b : NodeId} (hb : b ∈ sorted) (hlt : ∀ a ∈ sorted, a ≠ b → key a < key b) :
    sorted.getLast? = some b := by
  obtain ⟨last, hlast⟩ : ∃ last, sorted.getLast? = some last :=
    Option.isSome_iff_exists.1 (List.getLast?_isSome.2 (List.ne_nil_of_mem hb))
  obtain ⟨front, rfl⟩ := List.getLast?_eq_some_iff.1 hlast
  by_cases heq : last = b
  · rw [hlast, heq]
  · have hle : key b ≤ key last := by
      rcases List.mem_append.1 hb with hfront | hb
      · exact (List.pairwise_append.1 hsorted).2.2 b hfront last (List.mem_singleton_self _)
      · exact absurd (List.mem_singleton.1 hb).symm heq
    exact absurd (hlt last (by simp) heq) (not_lt_of_ge hle)

end Keys

/-! ## What blocks are before anything is anchored -/

/-- A control edge that is no shortcut leads on inside the block. -/
theorem InBlock.step {g : Graph} {first a b : NodeId} (ha : InBlock g first a) (hown : isOtherMerge g first a = false)
    (hop : g.op a ≠ .branch) {e : Edge} (he : e ∈ g.outputs a) (hcontrol : e.role.isControl = true)
    (hkept : ¬ IsShortcut g e) (htarget : e.target = b) : InBlock g first b := by
  rw [← htarget]
  refine ((isLeast_inBlock g first).1).following a ha (fun hmerge => ?_) hop e he hcontrol hkept
  by_contra hne
  simp [isOtherMerge, hne, hmerge] at hown

/-- Without anchors blocks grow along control only. -/
theorem controlPath_of_inBlock {g : Graph} (hfree : ∀ id, g.inputsNamed id .globalSchedule = []) {first x : NodeId}
    (h : InBlock g first x) : ControlPath g first x := by
  induction h with
  | refl => exact .refl
  | @tail a b _ hstep ih =>
      rcases (mem_blockNeighbours hstep).2 with ⟨e, he, -⟩ | ⟨-, hcontrol⟩
      · rw [hfree] at he
        cases he
      · exact ih.tail hcontrol

/-- What can begin a block is apart from all other blocks, and what ends one is alone in
    that and nothing of the block follows it. -/
structure Parted (g : Graph) : Prop where
  apart : ∀ first ∈ blockFirsts g, ∀ second ∈ blockFirsts g, first ≠ second → ∀ id, InBlock g first id →
    InBlock g second id → isOtherMerge g first id = true ∨ isOtherMerge g second id = true
  oneEnd : ∀ first ∈ blockFirsts g, ∀ a b, InBlock g first a → InBlock g first b → a ≠ first → b ≠ first →
    endsBlock g first a = true → endsBlock g first b = true → a = b
  ended : ∀ first ∈ blockFirsts g, ∀ a b, InBlock g first a → InBlock g first b → a ≠ first →
    endsBlock g first a = true → b ∉ g.controlSuccessors a

/-- The first node of a block waits for no value that is at home there. -/
def FirstsFree (g : Graph) (aside : List NodeId) (home : NodeId → NodeId) : Prop :=
  ∀ e, 0 < g.multiplicity e → e.role.isValue = true → g.beginsBlock e.target = true → Floats g aside e.source →
    g.useSite e = e.target → home e.source ≠ e.target

theorem isFixed_op_of_endsBlock {g : Graph} {first id : NodeId} (h : endsBlock g first id = true) :
    (g.op id).isFixed = true := by
  simp only [endsBlock, isOtherMerge, Bool.or_eq_true, Bool.and_eq_true, decide_eq_true_eq] at h
  rcases h with (h | h) | ⟨-, h⟩ <;> rw [h] <;> rfl

theorem isFixed_of_endsBlock {g : Graph} {first id : NodeId} (h : endsBlock g first id = true) : g.isFixed id = true :=
  Graph.isFixed_of_op (isFixed_op_of_endsBlock h)

theorem isOtherMerge_of_floating {g : Graph} {first id : NodeId} (h : g.isFixed id = false) :
    isOtherMerge g first id = false := by
  by_contra hother
  rw [Bool.not_eq_false] at hother
  have hends : endsBlock g first id = true := by simp [endsBlock, hother]
  rw [isFixed_of_endsBlock hends] at h
  cases h

/-- Where a value is needed control leads on to the node that reads it. -/
theorem controlPath_useSite {g : Graph} (hg : g.Consistent) (e : Edge) : ControlPath g (g.useSite e) e.target := by
  rcases g.useSite_cases e with heq | ⟨n, merge, hneeded⟩
  · rw [heq]
    exact .refl
  · obtain ⟨hmerge, hphi⟩ := hneeded.mem_controlSuccessors hg
    exact (ReflTransGen.single hmerge).tail hphi

/-- Where a member stands in its block: what ends the block is last, the others are in the
    order of their homes.  Of those at home at one place the last to be placed is the
    first, and the place itself comes after them. -/
def homeKey (g : Graph) (home : NodeId → NodeId) (turn : NodeId → Nat) (first id : NodeId) : Bool ×ₗ Int ×ₗ Int :=
  toLex (endsBlock g first id, toLex (time g (home id), if g.isFixed id = true then 1 else -(turn id : Int)))

theorem homeKey_lt {g : Graph} {home : NodeId → NodeId} {turn : NodeId → Nat} {first a b : NodeId}
    (hends : endsBlock g first a = false) (h : time g (home a) < time g (home b) ∨
      time g (home a) = time g (home b) ∧ g.isFixed a = false ∧ (g.isFixed b = true ∨ turn b < turn a)) :
    homeKey g home turn first a < homeKey g home turn first b := by
  rw [homeKey, homeKey, Prod.Lex.toLex_lt_toLex, hends]
  cases endsBlock g first b with
  | true => exact .inl Bool.false_lt_true
  | false =>
      refine .inr ⟨rfl, Prod.Lex.toLex_lt_toLex.2 (h.imp_right fun ⟨heq, hfloating, hlater⟩ => ⟨heq, ?_⟩)⟩
      rw [if_neg (by simp [hfloating])]
      split
      · omega
      · rename_i hfixed
        have := hlater.resolve_left hfixed
        omega

theorem homeKey_lt_of_ends {g : Graph} (home : NodeId → NodeId) (turn : NodeId → Nat) {first a b : NodeId}
    (ha : endsBlock g first a = false) (hb : endsBlock g first b = true) :
    homeKey g home turn first a < homeKey g home turn first b := by
  rw [homeKey, homeKey, Prod.Lex.toLex_lt_toLex, ha, hb]
  exact .inl Bool.false_lt_true

/-! ## Blocks once all are at home -/

/-- A graph that no schedule was written into, and the same with all floating nodes at
    home. -/
structure Housed (g : Graph) (home : NodeId → NodeId) (s : Graph) : Prop where
  timed : Timed g
  homes : Homes g [] home
  roles : g.Unscheduled
  homing : Homing g home s []

namespace Housed

variable {g s : Graph} {home : NodeId → NodeId} (h : Housed g home s)
include h

theorem consistent : s.Consistent := h.homing.consistent h.timed.consistent

theorem sameProgram : Graph.SameProgram g s := h.homing.sameProgram

theorem inputsNamed_eq_nil {name : Role.Name} (hname : name.isSchedule = true) (id : NodeId) :
    g.inputsNamed id name = [] := by
  rw [List.eq_nil_iff_forall_not_mem]
  intro e he
  obtain ⟨he, hrole⟩ := List.mem_filter.1 he
  have hname' : e.role.name = name := of_decide_eq_true hrole
  rcases h.roles e (Graph.multiplicity_pos.2 (h.timed.consistent.mem_outputs he)) with hkind | hkind
  · rw [Role.isControl, hname'] at hkind
    cases name <;> simp_all [Role.Name.isControl, Role.Name.isSchedule]
  · rw [Role.isValue, hname'] at hkind
    cases name <;> simp_all [Role.Name.isValue, Role.Name.isSchedule]

theorem placedAt {id : NodeId} (hid : g.has id = true) : PlacedAt s id (home id) := by
  cases hfixed : g.isFixed id with
  | true =>
      rw [h.homes.fixed id hfixed]
      exact ⟨[], .fixed (by rw [h.sameProgram.isFixed, hfixed])⟩
  | false => exact h.homing.atHome id hid hfixed List.not_mem_nil

/-- A node and its anchor are at home at the same place. -/
theorem anchorStep {id anchor : NodeId} (hstep : AnchorStep s id anchor) :
    Floats g [] id ∧ home anchor = home id := by
  obtain ⟨e, he, rfl⟩ := hstep
  have hlive := Graph.has_of_mem_outputs (List.mem_of_mem_filter he)
  rw [h.homing.agree.has] at hlive
  obtain ⟨last, hlast, hhome⟩ : ∃ last, PlacedAt s id last ∧ last = home id := ⟨_, h.placedAt hlive, rfl⟩
  obtain ⟨passed, hchain⟩ := hlast
  cases hchain with
  | fixed hfixed =>
      rw [h.homing.unanchored hfixed] at he
      cases he
  | @anchored _ e' _ _ hfloating hanchor htail =>
      rw [hanchor, List.mem_singleton] at he
      subst he
      rw [h.sameProgram.isFixed] at hfloating
      rw [← hhome, h.homing.eq_home h.homes ⟨_, htail⟩]
      exact ⟨⟨hlive, hfloating, List.not_mem_nil⟩, rfl⟩

theorem anchorStep_of_mem_inputs {id : NodeId} {e : Edge} (he : e ∈ s.inputs id)
    (hname : e.role.name = .globalSchedule) : AnchorStep s e.source id :=
  ⟨e, List.mem_filter.2 ⟨h.consistent.mem_outputs he, by simp [hname]⟩, h.consistent.target_eq id e he⟩

theorem isOtherMerge_eq (first id : NodeId) : isOtherMerge s first id = isOtherMerge g first id := by
  rw [isOtherMerge, isOtherMerge, h.homing.agree.op]

theorem isShortcut_iff {e : Edge} : IsShortcut s e ↔ IsShortcut g e := by
  rw [IsShortcut, IsShortcut, h.homing.agree.op, h.homing.agree.op,
    h.sameProgram.inputsWhere_of_le fun _ => Graph.unscheduled_of_isControl]

/-- A chain of anchors that ends in a block begins there, unless another block begins
    where it ends. -/
theorem inBlock_of_chain {first id last : NodeId} {passed : List NodeId} (hchain : AnchorChain s id passed last)
    (hlast : InBlock s first last) (hown : isOtherMerge s first last = false) : InBlock s first id := by
  induction hchain with
  | fixed _ => exact hlast
  | @anchored id e rest last hfloating hanchor htail ih =>
      have hmem : e ∈ s.outputsNamed id .globalSchedule := by
        rw [hanchor]
        exact List.mem_singleton_self e
      obtain ⟨he, hname⟩ := List.mem_filter.1 hmem
      have hholder : isOtherMerge s first e.target = false := by
        cases hfixed : s.isFixed e.target with
        | true =>
            obtain ⟨-, rfl⟩ := htail.unique (.fixed hfixed)
            exact hown
        | false => exact isOtherMerge_of_floating hfixed
      rw [← h.consistent.source_eq id e he]
      refine ((isLeast_inBlock s first).1).anchored e.target (ih hlast hown) (fun hmerge => ?_) e
        (h.consistent.mem_inputs he) (of_decide_eq_true hname)
      by_contra hne
      simp [isOtherMerge, hne, hmerge] at hholder

/-- A block consists of the fixed nodes that control brings into it and of the floating
    ones that are at home there. -/
theorem inBlock_iff {first : NodeId} (hfirst : g.isFixed first = true) {x : NodeId} : InBlock s first x ↔
    (g.isFixed x = true ∧ InBlock g first x) ∨
      (Floats g [] x ∧ InBlock g first (home x) ∧ isOtherMerge g first (home x) = false) := by
  have hs := h.consistent
  constructor
  · refine fun hx => (isLeast_inBlock s first).2 (⟨.inl ⟨hfirst, .refl⟩, fun id hid hstays e he hname => ?_,
      fun id hid hstays hop e he hcontrol hkept => ?_⟩ : BlockClosed s first {y | (g.isFixed y = true ∧ InBlock g first y) ∨
        (Floats g [] y ∧ InBlock g first (home y) ∧ isOtherMerge g first (home y) = false)}) hx
    · obtain ⟨hfloats, hhome⟩ := h.anchorStep (h.anchorStep_of_mem_inputs he hname)
      refine .inr ⟨hfloats, ?_⟩
      rw [← hhome]
      rcases hid with ⟨hfixed, hin⟩ | ⟨-, hin⟩
      · rw [h.homes.fixed id hfixed]
        refine ⟨hin, ?_⟩
        rw [h.homing.agree.op] at hstays
        by_contra hother
        simp only [isOtherMerge, Bool.not_eq_false, Bool.and_eq_true, decide_eq_true_eq] at hother
        exact hother.1 (hstays hother.2)
      · exact hin
    · have hsource := hs.source_eq id e he
      have hnext : e.target ∈ s.controlSuccessors id := List.mem_map.2 ⟨e, List.mem_filter.2 ⟨he, hcontrol⟩, rfl⟩
      have hfixed := Graph.isFixed_of_hasControlSuccessor hnext
      have htarget := hs.isFixed_of_controlSuccessors hnext
      rw [h.sameProgram.isFixed] at hfixed htarget
      rcases hid with ⟨-, hin⟩ | ⟨hfloats, -⟩
      · rw [h.homing.agree.op] at hstays hop
        rw [h.isShortcut_iff] at hkept
        exact .inl ⟨htarget, ((isLeast_inBlock g first).1).following id hin hstays hop e
          ((h.sameProgram.mem_outputs_iff (Graph.unscheduled_of_isControl hcontrol)).1 he) hcontrol hkept⟩
      · rw [hfloats.floating] at hfixed
        cases hfixed
  · have hold : ∀ {x : NodeId}, InBlock g first x → InBlock s first x := by
      refine fun hx => (isLeast_inBlock g first).2 (⟨.refl, fun id _ _ e he hname => ?_,
        fun id hid hstays hop e he hcontrol hkept => ?_⟩ : BlockClosed g first {x | InBlock s first x}) hx
      · have hmem : e ∈ g.inputsNamed id .globalSchedule := List.mem_filter.2 ⟨he, by simp [hname]⟩
        rw [h.inputsNamed_eq_nil rfl] at hmem
        cases hmem
      · rw [← h.homing.agree.op] at hstays hop
        rw [← h.isShortcut_iff] at hkept
        exact ((isLeast_inBlock s first).1).following id hid hstays hop e
          ((h.sameProgram.mem_outputs_iff (Graph.unscheduled_of_isControl hcontrol)).2 he) hcontrol hkept
    rintro (⟨-, hin⟩ | ⟨hfloats, hin, hown⟩)
    · exact hold hin
    · obtain ⟨passed, hchain⟩ := h.placedAt hfloats.live
      exact h.inBlock_of_chain hchain (hold hin) (by rw [h.isOtherMerge_eq]; exact hown)

/-- The home of a member is in the block, behind the first node. -/
theorem home_mem {first x : NodeId} (hfirst : g.isFixed first = true) (hx : InBlock s first x) :
    InBlock g first (home x) ∧ ControlPath g first (home x) := by
  have hin : InBlock g first (home x) := by
    rcases (h.inBlock_iff hfirst).1 hx with ⟨hfixed, hin⟩ | ⟨-, hin, -⟩
    · rw [h.homes.fixed x hfixed]
      exact hin
    · exact hin
  exact ⟨hin, controlPath_of_inBlock (h.inputsNamed_eq_nil rfl) hin⟩

/-! ### Members in order -/

/-- Control leads from the home of a floating value on to where it is needed, and from
    there to what reads it. -/
theorem controlPath_home {e : Edge} (he : 0 < g.multiplicity e) (hvalue : e.role.isValue = true)
    (hsource : Floats g [] e.source) :
    ControlPath g (home e.source) (home (g.useSite e)) ∧ ControlPath g (home (g.useSite e)) (home e.target) := by
  have hsite : g.useSite e ∈ g.useSites e.source :=
    List.mem_map_of_mem (List.mem_filter.2 ⟨Graph.multiplicity_pos.1 he, hvalue⟩)
  refine ⟨h.homes.serves _ hsource _ hsite, ?_⟩
  rcases controlPath_iff.1 (controlPath_useSite h.timed.consistent e) with heq | hleads
  · rw [heq]
    exact .refl
  · obtain ⟨hfixedSite, hfixedTarget⟩ := isFixed_of_leadsTo h.timed.consistent hleads
    rw [h.homes.fixed _ hfixedSite, h.homes.fixed _ hfixedTarget]
    exact hleads.to_reflTransGen

/-- An edge that leads to a node brings control or a value, unless it anchors another to
    it or is of a chain. -/
theorem of_mem_inputs {id : NodeId} {e : Edge} (he : e ∈ s.inputs id) (hname : e.role.name ≠ .localSchedule) :
    e.role.name = .globalSchedule ∨ id ∈ g.controlSuccessors e.source ∨
      (0 < g.multiplicity e ∧ e.role.isValue = true ∧ e.target = id) := by
  by_cases hanchor : e.role.name = .globalSchedule
  · exact .inl hanchor
  have hold : e ∈ g.outputs e.source := by
    refine (h.sameProgram.mem_outputs_iff ?_).1 (h.consistent.mem_outputs he)
    unfold Graph.unscheduled Role.isSchedule
    cases hkind : e.role.name <;> simp_all [Role.Name.isSchedule]
  have htarget := h.consistent.target_eq id e he
  have hpos := Graph.multiplicity_pos.2 hold
  refine .inr ((h.roles e hpos).imp (fun hcontrol => ?_) fun hvalue => ⟨hpos, hvalue, htarget⟩)
  exact List.mem_map.2 ⟨e, List.mem_filter.2 ⟨hold, hcontrol⟩, htarget⟩

/-- A node comes before what reads it, follows it or anchors it, unless it ends the
    block. -/
theorem homeKey_lt_of_input {turn : NodeId → Nat} (hturn : ∀ x, Floats g [] x → ∀ y, Floats g [] y →
      (y ∈ g.consumers x ∨ AnchorStep s x y) → turn y < turn x)
    {first id : NodeId} {e : Edge} (he : e ∈ s.inputs id) (hname : e.role.name ≠ .localSchedule)
    (hends : endsBlock g first e.source = false) :
    homeKey g home turn first e.source < homeKey g home turn first id := by
  have hg := h.timed.consistent
  have hlive := Graph.has_of_mem_inputs he
  rw [h.homing.agree.has] at hlive
  have htie : Floats g [] e.source → (id ∈ g.consumers e.source ∨ AnchorStep s e.source id) →
      ControlPath g (home e.source) (home id) → homeKey g home turn first e.source < homeKey g home turn first id := by
    intro hfloats hfollows hpath
    refine homeKey_lt hends ((Int.le_iff_lt_or_eq.1 (h.timed.time_le hpath)).imp_right fun heq =>
      ⟨heq, hfloats.floating, ?_⟩)
    cases hfixed : g.isFixed id with
    | true => exact .inl rfl
    | false => exact .inr (hturn _ hfloats _ ⟨hlive, hfixed, List.not_mem_nil⟩ hfollows)
  rcases h.of_mem_inputs he hname with hanchor | hnext | ⟨hpos, hvalue, rfl⟩
  · have hstep := h.anchorStep_of_mem_inputs he hanchor
    obtain ⟨hfloats, hhome⟩ := h.anchorStep hstep
    refine htie hfloats (.inr hstep) ?_
    rw [hhome]
    exact .refl
  · obtain ⟨hsource, htarget⟩ := isFixed_of_leadsTo hg (.single hnext)
    refine homeKey_lt hends (.inl ?_)
    rw [h.homes.fixed _ hsource, h.homes.fixed _ htarget]
    exact h.timed.time_lt (.single hnext)
  · have hold := Graph.multiplicity_pos.1 hpos
    have hreads : e.target ∈ g.consumers e.source := List.mem_map.2 ⟨e, List.mem_filter.2 ⟨hold, hvalue⟩, rfl⟩
    cases hfixed : g.isFixed e.source with
    | true =>
        refine homeKey_lt hends (.inl ?_)
        rw [h.homes.fixed _ hfixed]
        exact h.timed.time_lt (h.homes.operands _ _ hfixed hreads List.not_mem_nil)
    | false =>
        have hfloats : Floats g [] e.source := ⟨Graph.has_of_mem_outputs hold, hfixed, List.not_mem_nil⟩
        obtain ⟨hsite, htarget⟩ := h.controlPath_home hpos hvalue hfloats
        exact htie hfloats (.inl hreads) (hsite.trans htarget)

/-- What ends a block was in it before anything was anchored. -/
theorem inBlock_of_ends {first : NodeId} (hfirst : g.isFixed first = true) {id : NodeId} (hid : InBlock s first id)
    (hends : endsBlock g first id = true) : InBlock g first id := by
  rcases (h.inBlock_iff hfirst).1 hid with ⟨-, hin⟩ | ⟨hfloats, -⟩
  · exact hin
  · have hfixed := isFixed_of_endsBlock hends
    rw [hfloats.floating] at hfixed
    cases hfixed

/-- No member comes after what ends the block. -/
theorem endsBlock_eq_false_of_input (hv : g.Valued) (hp : Parted g) {first : NodeId} (hfirst : first ∈ blockFirsts g)
    {id : NodeId} {e : Edge} (he : e ∈ s.inputs id) (hname : e.role.name ≠ .localSchedule)
    (hsource : InBlock s first e.source) (hne : e.source ≠ first) (hid : InBlock s first id) :
    endsBlock g first e.source = false := by
  have hfixedFirst := isFixed_of_beginsBlock (mem_blockFirsts.1 hfirst).2
  by_contra hends
  rw [Bool.not_eq_false] at hends
  have hfixed := isFixed_of_endsBlock hends
  rcases h.of_mem_inputs he hname with hanchor | hleads | ⟨hpos, hvalue, -⟩
  · have hfloating := (h.anchorStep (h.anchorStep_of_mem_inputs he hanchor)).1.floating
    rw [hfixed] at hfloating
    cases hfloating
  · have htarget := h.timed.consistent.isFixed_of_controlSuccessors hleads
    refine hp.ended first hfirst _ _ (h.inBlock_of_ends hfixedFirst hsource hends) ?_ hne hends hleads
    rcases (h.inBlock_iff hfixedFirst).1 hid with ⟨-, hin⟩ | ⟨hfloats, -⟩
    · exact hin
    · rw [hfloats.floating] at htarget
      cases htarget
  · have hproduces := hv e hpos hvalue
    simp only [endsBlock, isOtherMerge, Bool.or_eq_true, Bool.and_eq_true, decide_eq_true_eq] at hends
    rcases hends with (hop | hop) | ⟨-, hop⟩ <;> rw [Graph.producesValue, hop] at hproduces <;> cases hproduces

/-- Nothing of the block comes before its first node. -/
theorem firstFree (hf : FirstsFree g [] home) {first : NodeId} (hfirst : first ∈ blockFirsts g) {e : Edge}
    (he : e ∈ s.inputs first) (hsource : InBlock s first e.source) :
    e.role.name = .localSchedule ∨ e.role.name = .globalSchedule := by
  have hg := h.timed.consistent
  obtain ⟨-, hbegins⟩ := mem_blockFirsts.1 hfirst
  have hfixed := isFixed_of_beginsBlock hbegins
  obtain ⟨-, hpath⟩ := h.home_mem hfixed hsource
  have hback : ¬ g.LeadsTo (home e.source) first := fun hleads => by
    have hlt := h.timed.time_lt hleads
    have hle := h.timed.time_le hpath
    omega
  by_contra hother
  rw [not_or] at hother
  rcases (h.of_mem_inputs he hother.1).resolve_left hother.2 with hnext | ⟨hpos, hvalue, rfl⟩
  · refine hback ?_
    rw [h.homes.fixed _ (isFixed_of_leadsTo hg (.single hnext)).1]
    exact .single hnext
  · have hold := Graph.multiplicity_pos.1 hpos
    cases hfixedSource : g.isFixed e.source with
    | true =>
        have hreads : e.target ∈ g.consumers e.source := List.mem_map.2 ⟨e, List.mem_filter.2 ⟨hold, hvalue⟩, rfl⟩
        have hleads := h.homes.operands _ _ hfixedSource hreads List.not_mem_nil
        rw [h.homes.fixed _ hfixed] at hleads
        refine hback ?_
        rwa [h.homes.fixed _ hfixedSource]
    | false =>
        -- The value is needed here or in front of here, and at home neither before nor behind.
        have hfloats : Floats g [] e.source := ⟨Graph.has_of_mem_outputs hold, hfixedSource, List.not_mem_nil⟩
        obtain ⟨hsite, htarget⟩ := h.controlPath_home hpos hvalue hfloats
        rw [h.homes.fixed _ hfixed] at htarget
        have hhome : home e.source = e.target :=
          (controlPath_iff.1 (hsite.trans htarget)).resolve_right hback
        refine hf e hpos hvalue hbegins hfloats ?_ hhome
        rcases controlPath_iff.1 (controlPath_useSite hg e) with heq | hleads
        · exact heq
        · rw [h.homes.fixed _ (isFixed_of_leadsTo hg hleads).1] at hsite
          refine absurd ?_ hback
          rw [hhome] at hsite ⊢
          exact TransGen.trans_right hsite hleads

/-- The members can be put in the order of their keys. -/
theorem legalOrder (hv : g.Valued) (hp : Parted g) (hf : FirstsFree g [] home) {first : NodeId}
    (hfirst : first ∈ blockFirsts g) : ∃ order, LegalOrder s first (blockMembers s first) order := by
  have hs := h.consistent
  obtain ⟨hlive, hbegins⟩ := mem_blockFirsts.1 hfirst
  have hfixed := isFixed_of_beginsBlock hbegins
  have hliveS : s.has first = true := by
    rw [h.homing.agree.has]
    exact hlive
  have hmem : ∀ {id : NodeId}, id ∈ blockMembers s first ↔ InBlock s first id :=
    mem_blockMembers_iff_inBlock hs hliveS
  have hends : ∀ {id : NodeId}, id ≠ first → s.op id = .branch ∨ s.op id = .finish ∨ s.op id = .merge →
      endsBlock g first id = true := by
    intro id hne hop
    rw [h.homing.agree.op] at hop
    exact (endsBlock_iff hne).2 hop
  obtain ⟨turn, bound, hturns⟩ := h.homing.turns
  obtain ⟨rest, hperm, hsorted⟩ :=
    exists_perm_pairwise_key (homeKey g home turn first) ((blockMembers s first).filter (· ≠ first))
  have hrest : ∀ {id : NodeId}, InBlock s first id → id ≠ first → id ∈ rest := fun hid hne =>
    hperm.mem_iff.2 (List.mem_filter.2 ⟨hmem.2 hid, by simpa using hne⟩)
  refine ⟨first :: rest, (perm_cons_iff (nodup_blockMembers s first) (hmem.2 .refl)).2 hperm, rfl,
    fun id hid hne hop => ?_, fun id hid hne e he hname hsource => ?_, fun e he hsource _ =>
      h.firstFree hf hfirst he (hmem.1 hsource)⟩
  · -- No other member ends the block, so all others have a lower key.
    have hlast : rest.getLast? = some id := by
      refine getLast?_of_key_lt hsorted (hrest (hmem.1 hid) hne) fun a ha hother => ?_
      obtain ⟨ha, hafirst⟩ := List.mem_filter.1 (hperm.mem_iff.1 ha)
      refine homeKey_lt_of_ends home turn ?_ (hends hne hop)
      by_contra haends
      rw [Bool.not_eq_false] at haends
      exact hother (hp.oneEnd first hfirst a id (h.inBlock_of_ends hfixed (hmem.1 ha) haends)
        (h.inBlock_of_ends hfixed (hmem.1 hid) (hends hne hop)) (by simpa using hafirst) hne haends (hends hne hop))
    rw [List.getLast?_cons, hlast]
    rfl
  · by_cases hsourceFirst : e.source = first
    · rw [hsourceFirst, Precedes, List.idxOf_cons_self, List.idxOf_cons_ne _ (Ne.symm hne)]
      exact Nat.succ_pos _
    · have hbefore := precedes_of_key_lt hsorted (hrest (hmem.1 hsource) hsourceFirst) (hrest (hmem.1 hid) hne)
        (h.homeKey_lt_of_input (fun x hx => (hturns x hx).2) he hname
          (h.endsBlock_eq_false_of_input hv hp hfirst he hname (hmem.1 hsource) hsourceFirst (hmem.1 hid)))
      rw [Precedes, List.idxOf_cons_ne _ (Ne.symm hsourceFirst), List.idxOf_cons_ne _ (Ne.symm hne)]
      exact Nat.succ_lt_succ hbefore


/-- Where the first node of a block waits for nothing that is at home there. -/
theorem firstsFree_of_legalOrder (horder : ∀ first ∈ blockFirsts g, ∃ order, LegalOrder s first (blockMembers s first) order) :
    FirstsFree g [] home := by
  intro e he hvalue hbegins hfloats hsite hhome
  have hlive := h.timed.consistent.has_target (Graph.multiplicity_pos.1 he)
  have hfixed := isFixed_of_beginsBlock hbegins
  obtain ⟨order, hlegal⟩ := horder e.target (mem_blockFirsts.2 ⟨hlive, hbegins⟩)
  have hin : InBlock s e.target e.source := by
    refine (h.inBlock_iff hfixed).2 (.inr ⟨hfloats, ?_⟩)
    rw [hhome]
    exact ⟨.refl, isOtherMerge_self g e.target⟩
  have hmem : e ∈ s.inputs e.target :=
    h.consistent.mem_inputs ((h.sameProgram.mem_outputs_iff (Graph.unscheduled_of_isValue hvalue)).2 (Graph.multiplicity_pos.1 he))
  have hne : e.source ≠ e.target := by
    intro heq
    rw [← heq, hfloats.floating] at hfixed
    cases hfixed
  have hliveS : s.has e.target = true := by
    rw [h.homing.agree.has]
    exact hlive
  have hname := hlegal.firstFree e hmem ((mem_blockMembers_iff_inBlock h.consistent hliveS).2 hin) hne
  revert hvalue hname
  unfold Role.isValue
  cases e.role.name <;> simp [Role.Name.isValue]

/-- Blocks that can be put in order and share no node are parted. -/
theorem parted_of_legalOrder (horder : ∀ first ∈ blockFirsts g, ∃ order, LegalOrder s first (blockMembers s first) order)
    (hdisjoint : ∀ first ∈ blockFirsts g, ∀ second ∈ blockFirsts g, first ≠ second → Disjoint s first second) :
    Parted g := by
  have hg := h.timed.consistent
  have hs := h.consistent
  have hfree : ∀ id, g.inputsNamed id .globalSchedule = [] := fun id => h.inputsNamed_eq_nil rfl id
  have hmem : ∀ {first id : NodeId}, first ∈ blockFirsts g → InBlock g first id → id ∈ blockMembers s first := by
    intro first id hfirst hid
    obtain ⟨hlive, hbegins⟩ := mem_blockFirsts.1 hfirst
    have hfixed := isFixed_of_beginsBlock hbegins
    have hfixedId : g.isFixed id = true := by
      rcases controlPath_iff.1 (controlPath_of_inBlock hfree hid) with rfl | hleads
      · exact hfixed
      · exact (isFixed_of_leadsTo hg hleads).2
    refine (mem_blockMembers_iff_inBlock hs ?_).2 ((h.inBlock_iff hfixed).2 (.inl ⟨hfixedId, hid⟩))
    rw [h.homing.agree.has]
    exact hlive
  have hlast : ∀ {first id : NodeId} {order : List NodeId}, first ∈ blockFirsts g →
      LegalOrder s first (blockMembers s first) order → InBlock g first id → id ≠ first → endsBlock g first id = true →
      order.getLast? = some id := by
    intro first id order hfirst hlegal hid hne hends
    refine hlegal.endsLast id (hmem hfirst hid) hne ?_
    rw [h.homing.agree.op]
    exact (endsBlock_iff hne).1 hends
  refine ⟨fun first hfirst second hsecond hne id hid hid' => ?_, fun first hfirst a b ha hb hafirst hbfirst haends hbends => ?_,
    fun first hfirst a b ha hb hafirst haends hnext => ?_⟩
  · rw [← h.isOtherMerge_eq, ← h.isOtherMerge_eq]
    exact hdisjoint first hfirst second hsecond hne id (hmem hfirst hid) (hmem hsecond hid')
  · obtain ⟨order, hlegal⟩ := horder first hfirst
    have hsame := hlast hfirst hlegal ha hafirst haends
    rw [hlast hfirst hlegal hb hbfirst hbends] at hsame
    exact (Option.some.inj hsame).symm
  · obtain ⟨order, hlegal⟩ := horder first hfirst
    obtain ⟨e, he, rfl⟩ := List.mem_map.1 hnext
    obtain ⟨he, hcontrol⟩ := List.mem_filter.1 he
    have hsource := hg.source_eq a e he
    subst hsource
    have hin : e ∈ s.inputs e.target :=
      hs.mem_inputs ((h.sameProgram.mem_outputs_iff (Graph.unscheduled_of_isControl hcontrol)).2 he)
    have hname : e.role.name ≠ .localSchedule := by
      intro hname
      rw [Role.isControl, hname] at hcontrol
      cases hcontrol
    have htarget : e.target ≠ first := by
      intro heq
      have hlt := h.timed.time_lt (.single hnext)
      have hle := h.timed.time_le (controlPath_of_inBlock hfree ha)
      rw [heq] at hlt
      omega
    -- What ends the block is last, but it would have to come before the target.
    refine not_precedes_of_getLast? (hlegal.perm.nodup_iff.2 (nodup_blockMembers s first))
      (hlast hfirst hlegal ha hafirst haends) (hlegal.perm.mem_iff.2 (hmem hfirst hb)) ?_
    exact hlegal.inputsBefore e.target (hmem hfirst hb) htarget e hin hname (hmem hfirst ha)

/-- Once all are at home the blocks can be chained exactly if control parts them and their
    first nodes are free. -/
theorem chainAll_iff (hv : g.Valued) : (∃ c, chainAll s = .done c ()) ↔ Parted g ∧ FirstsFree g [] home := by
  have hfirsts : blockFirsts s = blockFirsts g := h.sameProgram.filter_beginsBlock
  rw [Schedule.chainAll_iff, hfirsts]
  constructor
  · rintro ⟨horder, hdisjoint⟩
    have hsymm : Std.Symm (Disjoint s) := ⟨fun _ _ => Disjoint.symm⟩
    exact ⟨h.parted_of_legalOrder horder fun first hfirst second hsecond hne => hdisjoint.forall hfirst hsecond hne,
      h.firstsFree_of_legalOrder horder⟩
  · rintro ⟨hp, hf⟩
    refine ⟨fun first hfirst => h.legalOrder hv hp hf hfirst, ?_⟩
    refine (nodup_blockFirsts g).pairwise_of_forall_ne fun first hfirst second hsecond hne id hid hid' => ?_
    have hin := (h.inBlock_iff (isFixed_of_beginsBlock (mem_blockFirsts.1 hfirst).2)).1 (mem_blockMembers.1 hid).2
    have hin' := (h.inBlock_iff (isFixed_of_beginsBlock (mem_blockFirsts.1 hsecond).2)).1 (mem_blockMembers.1 hid').2
    rw [h.isOtherMerge_eq, h.isOtherMerge_eq]
    rcases hin with ⟨hfixed, hid⟩ | ⟨hfloats, hhome, hown⟩
    · rcases hin' with ⟨-, hid'⟩ | ⟨hfloats, -⟩
      · exact hp.apart first hfirst second hsecond hne id hid hid'
      · rw [hfloats.floating] at hfixed
        cases hfixed
    · -- A floating node is in a block because its home is, and belongs there.
      rcases hin' with ⟨hfixed, -⟩ | ⟨-, hhome', hown'⟩
      · rw [hfloats.floating] at hfixed
        cases hfixed
      · have hother := hp.apart first hfirst second hsecond hne (home id) hhome hhome'
        rw [hown, hown'] at hother
        simp at hother

end Housed

/-! ## A whole run -/

section Agree

variable {g o : Graph} (hagree : Graph.Agree (fun _ => true) g o)
include hagree

theorem consumers_agree (id : NodeId) : o.consumers id = g.consumers id := by
  rw [Graph.consumers, hagree.outputsWhere_of_le fun _ _ => rfl, Graph.consumers]

theorem floats_agree {aside : List NodeId} {id : NodeId} : Floats o aside id ↔ Floats g aside id := by
  have hfixed := hagree.sameProgram.isFixed id
  refine ⟨fun h => ⟨?_, ?_, h.counted⟩, fun h => ⟨?_, ?_, h.counted⟩⟩
  · rw [← hagree.has]
    exact h.live
  · rw [← hfixed]
    exact h.floating
  · rw [hagree.has]
    exact h.live
  · rw [hfixed]
    exact h.floating

theorem serves_agree {home : NodeId → NodeId} {id c : NodeId} : Serves o home id c ↔ Serves g home id c := by
  unfold Serves
  rw [hagree.sameProgram.useSites, ControlPath.agree hagree.sameProgram]

theorem Homes.agree {aside : List NodeId} {home : NodeId → NodeId} (h : Homes g aside home) : Homes o aside home := by
  have hsame := hagree.sameProgram
  have hleads : o.LeadsTo = g.LeadsTo := by
    unfold Graph.LeadsTo
    rw [funext hsame.controlSuccessors]
  obtain ⟨depth, hdepth⟩ := h.founded
  constructor
  · intro id
    rw [hsame.isFixed]
    exact h.fixed id
  · intro id
    rw [floats_agree hagree, hsame.isFixed, hsame.op]
    exact h.place id
  · intro id
    rw [floats_agree hagree, serves_agree hagree]
    exact h.serves id
  · intro id hid c
    rw [floats_agree hagree] at hid
    rw [hsame.isFixed, hsame.op, serves_agree hagree, ControlPath.agree hsame]
    exact h.nearest id hid c
  · intro x y
    rw [hsame.isFixed, consumers_agree hagree, hleads]
    exact h.operands x y
  · refine ⟨depth, fun x y => ?_⟩
    rw [floats_agree hagree, floats_agree hagree, consumers_agree hagree]
    exact hdepth x y

theorem parted_agree : Parted o ↔ Parted g := by
  have hchains : Graph.Agree Graph.unchained g o := hagree.mono fun _ _ => rfl
  have hfirsts : blockFirsts o = blockFirsts g := hagree.sameProgram.filter_beginsBlock
  have hblock : InBlock o = InBlock g := funext fun first => inBlock_agree hchains first
  have hother : isOtherMerge o = isOtherMerge g := funext fun first => funext fun id => isOtherMerge_agree hchains first id
  have hends : endsBlock o = endsBlock g := funext fun first => funext fun id => endsBlock_agree hchains first id
  have hnext : o.controlSuccessors = g.controlSuccessors := funext hagree.sameProgram.controlSuccessors
  refine ⟨fun ⟨hapart, hone, hended⟩ => ⟨?_, ?_, ?_⟩, fun ⟨hapart, hone, hended⟩ => ⟨?_, ?_, ?_⟩⟩
  · rwa [hfirsts, hblock, hother] at hapart
  · rwa [hfirsts, hblock, hends] at hone
  · rwa [hfirsts, hblock, hends, hnext] at hended
  · rwa [hfirsts, hblock, hother]
  · rwa [hfirsts, hblock, hends]
  · rwa [hfirsts, hblock, hends, hnext]

theorem firstsFree_agree {aside : List NodeId} {home : NodeId → NodeId} : FirstsFree o aside home ↔ FirstsFree g aside home := by
  unfold FirstsFree
  refine forall_congr' fun e => ?_
  rw [Graph.multiplicity, hagree.outputs_eq, ← Graph.multiplicity, hagree.sameProgram.beginsBlock,
    hagree.sameProgram.useSite, floats_agree hagree]

end Agree

/-- A graph that nothing was written into yet, whose values are all read, and whose fixed
    nodes can be ordered, with no way back to a start. -/
structure Fresh (g : Graph) : Prop extends g.Unannotated where
  valued : g.Valued
  noneDangles : g.NoneDangles
  onward : ¬ Returns g
  ordered : ∃ o, orderFixed g = .done o ()
  small : g.arena.size < 2 ^ 63

/-- Once its fixed nodes are numbered all others are brought home. -/
theorem Fresh.exists_housed {g o : Graph} {home : NodeId → NodeId} (hfresh : Fresh g) (hh : Homes g [] home)
    (horder : orderFixed g = .done o ()) : ∃ a, anchorFloating o = .done a () ∧ Housed o home a.graph := by
  have hcheck := checkSchedulable_of_unscheduled hfresh.roles hfresh.oneStart hfresh.consistent
  have hagree := agree_orderFixed (fun _ => true) horder
  have ht : Timed o :=
    (ordered_of_orderFixed hfresh.consistent hfresh.small hfresh.unnumbered horder).timed hfresh.consistent hfresh.onward
  have hread : o.NoneDangles := fun id hid hfloating => by
    rw [hagree.has] at hid
    rw [hagree.sameProgram.isFloating] at hfloating
    rw [consumers_agree hagree]
    exact hfresh.noneDangles id hid hfloating
  have hroles : o.Unscheduled := fun e he => by
    rw [Graph.multiplicity, hagree.outputs_eq] at he
    exact hfresh.roles e he
  obtain ⟨a, hanchor, hhoming⟩ := anchorFloating_of_homes ht (hh.agree hagree) hread fun id =>
    outputsNamed_eq_nil_of_orderFixed hcheck horder id .globalSchedule rfl
  exact ⟨a, hanchor, ht, hh.agree hagree, hroles, hhoming⟩

/-- If all floating nodes of such a graph have homes, it can be scheduled exactly if control
    parts its blocks and their first nodes wait for nothing that is at home there. -/
theorem run_of_homes {g : Graph} {home : NodeId → NodeId} (hfresh : Fresh g) (hh : Homes g [] home) :
    (run g).failure? = none ↔ Parted g ∧ FirstsFree g [] home := by
  obtain ⟨o, horder⟩ := hfresh.ordered
  have hcheck := checkSchedulable_of_unscheduled hfresh.roles hfresh.oneStart hfresh.consistent
  have hagree := agree_orderFixed (fun _ => true) horder
  have hvalued : o.Valued := fun e he hvalue => by
    rw [Graph.multiplicity, hagree.outputs_eq] at he
    rw [Graph.producesValue, hagree.op]
    exact hfresh.valued e he hvalue
  obtain ⟨a, hanchor, hhoused⟩ := hfresh.exists_housed hh horder
  rw [← parted_agree hagree, ← firstsFree_agree hagree, ← hhoused.chainAll_iff hvalued]
  constructor
  · intro hrun
    obtain ⟨o', a', c, -, horder', hanchor', hchain, -⟩ := run_phases hrun
    obtain rfl : o = o' := congrArg Outcome.state (horder.symm.trans horder')
    obtain rfl : a = a' := congrArg Outcome.state (hanchor.symm.trans hanchor')
    exact ⟨c, hchain⟩
  · rintro ⟨c, hchain⟩
    rw [run, hcheck, horder]
    simp only [Outcome.done] at hanchor hchain ⊢
    rw [hanchor]
    simp only
    rw [hchain]

/-- In the scheduled graph a block has its own fixed nodes, and the floating nodes that are
    at home there. -/
theorem inBlock_run_iff {g : Graph} {home : NodeId → NodeId} (hfresh : Fresh g) (hh : Homes g [] home)
    (hrun : (run g).failure? = none) {first x : NodeId} (hfirst : g.isFixed first = true) :
    InBlock (run g).graph first x ↔ (g.isFixed x = true ∧ InBlock g first x) ∨
      (Floats g [] x ∧ InBlock g first (home x) ∧ isOtherMerge g first (home x) = false) := by
  obtain ⟨o, a, c, -, horder, hanchor, hchain, hgraph⟩ := run_phases hrun
  have hagree := agree_orderFixed (fun _ => true) horder
  have hblocks : Graph.Agree Graph.unchained g o := hagree.mono fun _ _ => rfl
  obtain ⟨a', hanchor', hhoused⟩ := hfresh.exists_housed hh horder
  obtain rfl : a = a' := congrArg Outcome.state (hanchor.symm.trans hanchor')
  rw [hgraph, inBlock_agree (agree_chainAll hchain), hhoused.inBlock_iff (by rw [hagree.sameProgram.isFixed, hfirst]),
    hagree.sameProgram.isFixed, floats_agree hagree, inBlock_agree hblocks, isOtherMerge_agree hblocks]

end SeaOfNodes.Schedule
