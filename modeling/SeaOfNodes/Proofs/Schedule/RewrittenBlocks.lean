/-
  SeaOfNodes.Proofs.Schedule.RewrittenBlocks

  Blocks of rewritten graphs.  If each step of control in a graph is one in another or stays
  at a node there, and what begins or ends a block does so in both, then each block lies in
  a block of the other graph.  So it parts its nodes at least as well.  The rewrites that
  lowering is made of are such: the node that is put in control flow counts as the one
  before it.
-/
import SeaOfNodes.Proofs.Schedule.RewrittenHomes

namespace SeaOfNodes.Schedule

open SeaOfNodes.Graph Relation

/-! ## Blocks by steps of control -/

/-- A block goes on from a node to one that control leads to. -/
structure BlockStep (g : Graph) (first a b : NodeId) : Prop where
  own : isOtherMerge g first a = false
  onward : g.op a ≠ .branch
  next : b ∈ g.controlSuccessors a
  kept : ¬ IsShortcut g ⟨a, b, .control⟩

/-- Where nothing is anchored a block is what its first node leads to so. -/
theorem inBlock_iff_steps {g : Graph} (hg : g.Consistent) (hroles : g.Unscheduled) {first id : NodeId} :
    InBlock g first id ↔ ReflTransGen (BlockStep g first) first id := by
  constructor
  · refine fun hid => (isLeast_inBlock g first).2 (⟨.refl, fun id _ _ e he hname => ?_,
      fun id hin hstays hop e he hcontrol hkept => hin.tail ⟨?_, hop, ?_, ?_⟩⟩ :
        BlockClosed g first {id | ReflTransGen (BlockStep g first) first id}) hid
    · have hschedule := hroles e (multiplicity_pos.2 (hg.mem_outputs he))
      rw [Role.isControl, Role.isValue, hname] at hschedule
      simp [Role.Name.isControl, Role.Name.isValue] at hschedule
    · by_contra hother
      simp only [isOtherMerge, Bool.not_eq_false, Bool.and_eq_true, decide_eq_true_eq] at hother
      exact hother.1 (hstays hother.2)
    · exact List.mem_map.2 ⟨e, List.mem_filter.2 ⟨he, hcontrol⟩, rfl⟩
    · rw [IsShortcut, hg.source_eq id e he] at hkept
      exact hkept
  · intro hsteps
    induction hsteps with
    | refl => exact .refl
    | @tail a b _ hstep ih =>
        obtain ⟨e, he, rfl⟩ := List.mem_map.1 hstep.next
        obtain ⟨he, hcontrol⟩ := List.mem_filter.1 he
        refine ih.step hstep.own hstep.onward he hcontrol ?_ rfl
        rw [IsShortcut, hg.source_eq a e he]
        exact hstep.kept

/-! ## Graphs folded onto others -/

/-- A node in use that begins a block or has a place by its operation. -/
def Marked (g : Graph) (id : NodeId) : Prop := g.has id = true ∧ (g.beginsBlock id = true ∨ (g.op id).isFixed = true)

theorem marked_of_first {g : Graph} {first : NodeId} (h : first ∈ blockFirsts g) : Marked g first :=
  ⟨(mem_blockFirsts.1 h).1, .inl (mem_blockFirsts.1 h).2⟩

theorem marked_of_ends {g : Graph} {first id : NodeId} (h : endsBlock g first id = true) : Marked g id :=
  ⟨has_of_isFixed (isFixed_of_endsBlock h), .inr (isFixed_op_of_endsBlock h)⟩

/-- Each node of a graph stands for one of another.  Control goes from one to the next where
    it does there, or stays. -/
structure Folds (g g' : Graph) (f : NodeId → NodeId) : Prop where
  op_iff : ∀ id op, op.isFixed = true → (g'.op id = op ↔ g.op (f id) = op)
  begins : ∀ id ∈ blockFirsts g', f id ∈ blockFirsts g
  inj : ∀ a b, Marked g' a → Marked g' b → f a = f b → a = b
  steps : ∀ a b, b ∈ g'.controlSuccessors a → (f b = f a ∧ (g'.op a).isFixed = false) ∨
    (f b ∈ g.controlSuccessors (f a) ∧ (IsShortcut g ⟨f a, f b, .control⟩ → IsShortcut g' ⟨a, b, .control⟩))

namespace Folds

variable {g g' : Graph} {f : NodeId → NodeId} (h : Folds g g' f)
include h

theorem isOtherMerge_back {first id : NodeId} (hother : isOtherMerge g (f first) (f id) = true) :
    isOtherMerge g' first id = true := by
  simp only [isOtherMerge, Bool.and_eq_true, decide_eq_true_eq] at hother ⊢
  refine ⟨?_, (h.op_iff id .merge rfl).2 hother.2⟩
  rintro rfl
  exact hother.1 rfl

theorem endsBlock_fold {first id : NodeId} (hne : f id ≠ f first) (hends : endsBlock g' first id = true) :
    endsBlock g (f first) (f id) = true := by
  simp only [endsBlock, isOtherMerge, Bool.or_eq_true, Bool.and_eq_true, decide_eq_true_eq] at hends ⊢
  rcases hends with (hop | hop) | ⟨-, hop⟩
  · exact .inl (.inl ((h.op_iff id _ rfl).1 hop))
  · exact .inl (.inr ((h.op_iff id _ rfl).1 hop))
  · exact .inr ⟨hne, (h.op_iff id _ rfl).1 hop⟩

variable (hg : g.Consistent) (hg' : g'.Consistent) (hroles : g.Unscheduled) (hroles' : g'.Unscheduled)
include hg hg' hroles hroles'

/-- What belongs to a block stands for a member of the block that its first node stands
    for. -/
theorem inBlock {first id : NodeId} (hid : InBlock g' first id) : InBlock g (f first) (f id) := by
  rw [inBlock_iff_steps hg' hroles'] at hid
  rw [inBlock_iff_steps hg hroles]
  induction hid with
  | refl => exact .refl
  | @tail a b _ hstep ih =>
      rcases h.steps a b hstep.next with ⟨heq, -⟩ | ⟨hnext, hshortcut⟩
      · rw [heq]
        exact ih
      · refine ih.tail ⟨?_, fun hop => hstep.onward ((h.op_iff a _ rfl).2 hop), hnext, fun hs => hstep.kept (hshortcut hs)⟩
        by_contra hother
        rw [Bool.not_eq_false] at hother
        have hown := hstep.own
        rw [h.isOtherMerge_back hother] at hown
        cases hown

theorem parted (hp : Parted g) : Parted g' := by
  have hback : ∀ {first a : NodeId}, first ∈ blockFirsts g' → a ≠ first → Marked g' a → f a ≠ f first :=
    fun hfirst hne ha heq => hne (h.inj _ _ ha (marked_of_first hfirst) heq)
  have hin : ∀ {first id : NodeId}, InBlock g' first id → InBlock g (f first) (f id) := fun hid =>
    h.inBlock hg hg' hroles hroles' hid
  refine ⟨fun first hfirst second hsecond hne id hid hid' => ?_, fun first hfirst a b ha hb hafirst hbfirst haends hbends => ?_,
    fun first hfirst a b ha hb hafirst haends hnext => ?_⟩
  · have hapart := hp.apart (f first) (h.begins first hfirst) (f second) (h.begins second hsecond)
      (hback hsecond hne (marked_of_first hfirst)) (f id) (hin hid) (hin hid')
    exact hapart.imp h.isOtherMerge_back h.isOtherMerge_back
  · have ham := marked_of_ends haends
    have hbm := marked_of_ends hbends
    have hane := hback hfirst hafirst ham
    have hbne := hback hfirst hbfirst hbm
    exact h.inj a b ham hbm (hp.oneEnd (f first) (h.begins first hfirst) (f a) (f b) (hin ha) (hin hb) hane hbne
      (h.endsBlock_fold hane haends) (h.endsBlock_fold hbne hbends))
  · have hane := hback hfirst hafirst (marked_of_ends haends)
    rcases h.steps a b hnext with ⟨-, hfloating⟩ | ⟨hnext, -⟩
    · rw [isFixed_op_of_endsBlock haends] at hfloating
      cases hfloating
    · exact hp.ended (f first) (h.begins first hfirst) (f a) (f b) (hin ha) (hin hb) hane (h.endsBlock_fold hane haends) hnext

end Folds

/-! ## Rewrites that fold -/

theorem Relays.folds {g g' : Graph} {e : Edge} {mid : NodeId} (h : Relays g g' e mid) : Folds g g' id := by
  refine ⟨fun x op hop => ?_, fun x hx => ?_, fun a b _ _ => id, fun a b hb => .inr ?_⟩
  · by_cases hmid : x = mid
    · rw [hmid]
      exact iff_of_false (op_ne_of_isFixed h.floating hop) (op_ne_of_fresh h.fresh fun heq => by rw [heq] at hop; cases hop)
    · rw [h.op x hmid]
      exact Iff.rfl
  · obtain ⟨hlive, hbegins⟩ := mem_blockFirsts.1 hx
    have hmid : x ≠ mid := by
      rintro rfl
      rw [h.beginsBlock_mid] at hbegins
      cases hbegins
    exact mem_blockFirsts.2 ⟨((h.has x).1 hlive).resolve_right hmid,
      (h.beginsBlock_iff h.value h.consistent h.consistent' hmid).1 hbegins⟩
  · rw [h.controlSuccessors_iff h.value h.consistent h.consistent'] at hb
    obtain ⟨role, -, hpos⟩ := h.consistent.mem_controlSuccessors.1 hb
    obtain ⟨ha, hblive⟩ := h.consistent.has_of_multiplicity hpos
    refine ⟨hb, fun hshortcut => ?_⟩
    rw [IsShortcut, h.op _ (h.ne_mid ha), h.op _ (h.ne_mid hblive), h.entries h.value (h.ne_mid hblive)]
    exact hshortcut

/-- The node that is put in control flow stands for the one before it. -/
theorem Enters.folds {g g' : Graph} {before mid after : NodeId} (h : Enters g g' before mid after)
    (hbefore : (g.op before).isFixed = false) : Folds g g' fun id => if id = mid then before else id := by
  have hmarked : ∀ {id : NodeId}, Marked g' id → id ≠ mid := by
    rintro id ⟨-, hid⟩ rfl
    rw [h.beginsBlock_iff h.consistent h.consistent', h.nodes.op, h.floating, h.consistent.beginsBlock_iff] at hid
    rcases hid with (hop | hop | ⟨m, role, houtcome, hpos⟩) | hop
    · exact op_ne_of_isFixed h.floating rfl hop
    · exact op_ne_of_isFixed h.floating rfl hop
    · exact h.free (.inl ⟨m, role, isControl_of_isOutcome houtcome, hpos⟩)
    · cases hop
  refine ⟨fun id op hop => ?_, fun id hid => ?_, fun a b ha hb heq => ?_, fun a b hb => ?_⟩
  · rw [h.nodes.op]
    split
    · rename_i hmid
      rw [hmid]
      exact iff_of_false (op_ne_of_isFixed h.floating hop) (op_ne_of_isFixed hbefore hop)
    · exact Iff.rfl
  · rw [if_neg (hmarked (marked_of_first hid))]
    obtain ⟨hlive, hbegins⟩ := mem_blockFirsts.1 hid
    rw [h.nodes.has] at hlive
    exact mem_blockFirsts.2 ⟨hlive, (h.beginsBlock_iff h.consistent h.consistent').1 hbegins⟩
  · rwa [if_neg (hmarked ha), if_neg (hmarked hb)] at heq
  · obtain ⟨hbeforeMid, hafter⟩ := h.ne_mid h.next
    rcases h.successors_iff.1 hb with hb | ⟨rfl, rfl⟩ | ⟨rfl, rfl⟩
    · obtain ⟨ha, hbmid⟩ := h.ne_mid hb
      rw [if_neg ha, if_neg hbmid]
      refine .inr ⟨hb, fun ⟨hstart, hfinish, hmany⟩ => ⟨?_, ?_, Nat.lt_of_lt_of_le hmany ?_⟩⟩
      · rw [h.nodes.op]
        exact hstart
      · rw [h.nodes.op]
        exact hfinish
      · rw [h.entries, List.length_append]
        exact Nat.le_add_right _ _
    · rw [if_pos rfl, if_neg hbeforeMid, h.nodes.op]
      exact .inl ⟨rfl, hbefore⟩
    · rw [if_pos rfl, if_neg hafter]
      exact .inr ⟨h.next, fun ⟨hstart, _⟩ => absurd hstart (op_ne_of_isFixed hbefore rfl)⟩

theorem Recasts.folds {g g' : Graph} {old new : NodeId} (h : Recasts g g' old new) : Folds g g' (rename new old) := by
  have hops : ∀ (id : NodeId) (op : Op), op.isFixed = true → (g'.op id = op ↔ g.op (rename new old id) = op) := by
    intro id op hop
    by_cases hold : id = old
    · have hgone : g'.has id = false := by
        rw [← Bool.not_eq_true]
        exact fun hlive => (h.has_back hlive).1 hold
      rw [hold, rename, if_neg h.new_ne_old.symm, ← hold]
      refine iff_of_false (op_ne_of_fresh hgone fun heq => by rw [heq] at hop; cases hop) ?_
      rw [hold]
      exact op_ne_of_isFixed h.oldFloating hop
    · rw [h.op_back hold]
      split
      · rename_i hnew
        rw [hnew, rename, if_pos rfl]
        exact iff_of_false (op_ne_of_isFixed h.newFloating hop) (op_ne_of_isFixed h.oldFloating hop)
      · exact Iff.rfl
  refine ⟨hops, fun id hid => ?_, fun a b ha hb heq => ?_, fun a b hb => .inr ?_⟩
  · obtain ⟨hlive, hbegins⟩ := mem_blockFirsts.1 hid
    obtain ⟨hold, hback⟩ := h.has_back hlive
    exact mem_blockFirsts.2 ⟨hback, (h.beginsBlock_back_iff hold).1 hbegins⟩
  · have hsame := congrArg (rename old new) heq
    rwa [rename_rename_of_ne (h.has_back ha.1).1, rename_rename_of_ne (h.has_back hb.1).1] at hsame
  · obtain ⟨role, -, hpos⟩ := h.consistent'.mem_controlSuccessors.1 hb
    obtain ⟨ha, hblive⟩ := h.consistent'.has_of_multiplicity hpos
    have haold := (h.has_back ha).1
    have hbold := (h.has_back hblive).1
    refine ⟨(h.controlSuccessors_iff h.consistent h.consistent' haold hbold).1 hb, fun hshort =>
      ⟨(hops a _ rfl).2 hshort.1, (hops b _ rfl).2 hshort.2.1, ?_⟩⟩
    rw [h.entries hbold, List.length_map]
    exact hshort.2.2

end SeaOfNodes.Schedule
