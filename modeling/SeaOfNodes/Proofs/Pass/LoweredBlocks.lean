/-
  SeaOfNodes.Proofs.Pass.LoweredBlocks

  Conversions at the beginning of a block.  The first node of a block runs before all
  others, so it cannot wait for a node that is anchored to it, and a conversion that it
  alone reads would be.  Lowering puts one there whenever an addition begins a block, and
  whenever the first node of a block reads an addition that control does not leave.  No
  later step of lowering takes it away.
-/
import SeaOfNodes.Proofs.Pass.Lowering

namespace SeaOfNodes.Graph

/-- An edge brings a value to the first node of a block, where it is needed at once. -/
structure Heads (g : Graph) (e : Edge) : Prop where
  edge : 0 < g.multiplicity e
  value : e.role.isValue = true
  begins : g.beginsBlock e.target = true
  op : g.op e.target ≠ .phi

section Spliced

variable {g g' : Graph} {x : Edge} {mid : NodeId} (h : Spliced g g' x mid) (hvalue : x.role.isValue = true)
  (hg : g.Consistent) (hg' : g'.Consistent)
include h hvalue hg hg'

theorem Heads.splice_of_ne {e : Edge} (he : Heads g e) (hne : e ≠ x) : Heads g' e := by
  have htarget := h.ne_mid (hg.has_of_multiplicity he.edge).2
  refine ⟨(h.kept e he.edge).resolve_left hne, he.value, ?_, ?_⟩
  · rw [h.beginsBlock_iff hvalue hg hg' htarget]
    exact he.begins
  · rw [h.op _ htarget]
    exact he.op

theorem Heads.splice (he : Heads g x) : Heads g' (spliceTail x mid) := by
  have htarget := h.ne_mid (hg.has_of_multiplicity he.edge).2
  refine ⟨h.tail, he.value, ?_, ?_⟩
  · exact (h.beginsBlock_iff hvalue hg hg' htarget).2 he.begins
  · exact fun hop => he.op ((h.op _ htarget).symm.trans hop)

end Spliced

theorem Heads.sequence {g g' : Graph} {before mid after : NodeId} (h : Sequenced g g' before mid after)
    (hg : g.Consistent) (hg' : g'.Consistent) {e : Edge} (he : Heads g e) : Heads g' e := by
  refine ⟨(h.value_iff he.value).2 he.edge, he.value, ?_, ?_⟩
  · rw [h.beginsBlock_iff hg hg']
    exact he.begins
  · rw [h.nodes.op]
    exact he.op

section Renamed

variable {g g' : Graph} {old new : NodeId} (h : Renamed g g' old new) (hg : g.Consistent)
include h

include hg

theorem Heads.renamed (hg' : g'.Consistent) (hold : g.op old ≠ .start ∧ g.op old ≠ .merge)
    (hnew : g'.op new ≠ .start ∧ g'.op new ≠ .merge) (hphi : g'.op new ≠ .phi) {e : Edge} (he : Heads g e) :
    Heads g' (renameEdge old new e) := by
  have htarget := h.ne_new (hg.has_of_multiplicity he.edge).2
  refine ⟨h.multiplicity_renameEdge hg he.edge, he.value, ?_, ?_⟩
  · rw [renameEdge_target, h.beginsBlock_iff hg hg' hold hnew (h.rename_ne_old _), rename_rename_of_ne htarget]
    exact he.begins
  · rw [renameEdge_target, h.op_back (h.rename_ne_old _), rename_rename_of_ne htarget]
    split
    · exact hphi
    · exact he.op

end Renamed

end SeaOfNodes.Graph

namespace SeaOfNodes.Pass.Tagging

open SeaOfNodes.Graph Relation

/-! ## Conversions that one node reads -/

/-- A conversion outside of control flow that is read by one node only.  A tag is no
    more sequenced once no addition that control leaves feeds it. -/
structure Loose (g : Graph) (e : Edge) : Prop where
  free : ¬ g.Controlled e.source
  only : ∀ x, 0 < g.multiplicity x → x.source = e.source → x.target = e.target
  conversion : g.op e.source = .untagFixnum ∨ (g.op e.source = .tagFixnum ∧
    ∀ x, 0 < g.multiplicity x → x.target = e.source → g.op x.source = .fixnumAdd → ¬ g.Leaves x.source)

theorem Loose.op_ne {g : Graph} {e : Edge} (h : Loose g e) {id : NodeId}
    (hid : g.op id ≠ .untagFixnum ∧ g.op id ≠ .tagFixnum) : e.source ≠ id := by
  rintro rfl
  rcases h.conversion with hop | ⟨hop, -⟩
  · exact hid.1 hop
  · exact hid.2 hop

/-- The first node of a block reads a conversion that nothing else reads. -/
def Hanging (g : Graph) : Prop := ∃ e, Heads g e ∧ Loose g e

section Spliced

variable {g g' : Graph} {x : Edge} {mid : NodeId} (h : Spliced g g' x mid) (hvalue : x.role.isValue = true)
  (hg : g.Consistent)
include h hvalue hg

/-- Splicing elsewhere leaves a conversion as it is. -/
theorem Loose.splice_of_ne (hmid : g'.op mid ≠ .fixnumAdd) {e : Edge} (hedge : 0 < g.multiplicity e)
    (he : Loose g e) (hne : x.source ≠ e.source) : Loose g' e := by
  have hsource := h.ne_mid (hg.has_of_multiplicity hedge).1
  refine ⟨fun hcontrolled => he.free ((h.controlled_iff hvalue).1 hcontrolled), fun y hy hysource => ?_, ?_⟩
  · rcases h.old y hy with rfl | rfl | hy
    · exact absurd hysource hne
    · exact absurd hysource.symm hsource
    · exact he.only y hy hysource
  · rw [h.op _ hsource]
    refine he.conversion.imp_right fun ⟨hop, hfed⟩ => ⟨hop, fun y hy hytarget hyop hleaves => ?_⟩
    rcases h.old y hy with rfl | rfl | hy
    · exact hsource hytarget.symm
    · exact hmid hyop
    · rw [h.op _ (h.ne_mid (hg.has_of_multiplicity hy).1)] at hyop
      exact hfed y hy hytarget hyop ((h.leaves_iff hvalue).1 hleaves)

/-- The new node is read by the target of the edge that it is spliced onto, and by no
    other node. -/
theorem Loose.splice (hop : g'.op mid = .untagFixnum ∨ (g'.op mid = .tagFixnum ∧ ¬ g.Leaves x.source)) :
    Loose g' (spliceTail x mid) := by
  obtain ⟨hsource, htarget⟩ := hg.has_of_multiplicity h.edge
  refine ⟨fun hcontrolled => ?_, fun y hy hysource => ?_, hop.imp_right fun ⟨hop, hfree⟩ =>
    ⟨hop, fun y hy hytarget _ hleaves => hfree ?_⟩⟩
  · exact h.ne_mid (hg.has_of_controlled ((h.controlled_iff hvalue).1 hcontrolled)) rfl
  · rcases h.old y hy with rfl | rfl | hy
    · exact absurd hysource (h.ne_mid hsource)
    · rfl
    · exact absurd hysource (h.ne_mid (hg.has_of_multiplicity hy).1)
  · rcases h.old y hy with rfl | rfl | hy
    · exact (h.leaves_iff hvalue).1 hleaves
    · exact absurd hytarget (h.ne_mid htarget)
    · exact absurd hytarget (h.ne_mid (hg.has_of_multiplicity hy).2)

end Spliced

theorem Loose.sequence {g g' : Graph} {add mid next : NodeId} {role : Role} (h : Sequenced g g' add mid next)
    (hadd : g.op add = .fixnumAdd) (hop : g.op mid = .tagFixnum) (hfed : 0 < g.multiplicity ⟨add, mid, .value⟩)
    (hrole : role.isControl = true) (hnext : 0 < g.multiplicity ⟨add, next, role⟩) {e : Edge} (he : Loose g e) :
    Loose g' e := by
  have hleaves : g.Leaves add := ⟨next, role, hrole, hnext⟩
  -- The tag that is sequenced is fed by an addition that control leaves, so it is another one.
  have hmid : e.source ≠ mid := by
    rintro rfl
    rcases he.conversion with hconv | ⟨-, hfeeds⟩
    · rw [hop] at hconv
      cases hconv
    · exact hfeeds _ hfed rfl hadd hleaves
  have hsource : e.source ≠ add := he.op_ne (by rw [hadd]; decide)
  have htarget : e.source ≠ next := by
    rintro rfl
    exact he.free (.inl ⟨add, role, hrole, hnext⟩)
  refine ⟨fun hcontrolled => ?_, fun y hy hysource => ?_, ?_⟩
  · rcases (h.controlled_iff hrole hnext).1 hcontrolled with hcontrolled | hcontrolled
    · exact he.free hcontrolled
    · exact hmid hcontrolled
  · rcases (h.edge y).1 hy with hy | rfl | rfl
    · exact he.only y hy hysource
    · exact absurd hysource.symm hsource
    · exact absurd hysource.symm hmid
  · rw [h.nodes.op]
    refine he.conversion.imp_right fun ⟨hconv, hfeeds⟩ => ⟨hconv, fun y hy hytarget hyop hyleaves => ?_⟩
    rw [h.nodes.op] at hyop
    rcases (h.edge y).1 hy with hy | rfl | rfl
    · rcases (h.leaves_iff hrole hnext).1 hyleaves with hyleaves | hymid
      · exact hfeeds y hy hytarget hyop hyleaves
      · rw [hymid, hop] at hyop
        cases hyop
    · exact hmid hytarget.symm
    · exact htarget hytarget.symm

theorem Loose.renamed {g g' : Graph} {old new : NodeId} (h : Renamed g g' old new) (hg : g.Consistent)
    (hold : g.op old ≠ .untagFixnum ∧ g.op old ≠ .tagFixnum) (hnew : g'.op new ≠ .fixnumAdd) {e : Edge}
    (hedge : 0 < g.multiplicity e) (he : Loose g e) : Loose g' (renameEdge old new e) := by
  -- The conversion keeps its name; its reader may be the node that is renamed.
  have hsource : e.source ≠ old := he.op_ne hold
  have hkeep : (renameEdge old new e).source = e.source := if_neg hsource
  have hback : rename new old e.source = e.source := if_neg (h.ne_new (hg.has_of_multiplicity hedge).1)
  refine ⟨fun hcontrolled => ?_, fun y hy hysource => ?_, ?_⟩
  · rw [hkeep, h.controlled_iff hg hsource, hback] at hcontrolled
    exact he.free hcontrolled
  · obtain ⟨-, hytarget, hpos⟩ := (h.edge y).1 hy
    have honly := he.only _ hpos (by rw [hysource, hkeep, hback])
    rw [renameEdge_target, ← honly, rename_rename_of_ne hytarget]
  · rw [hkeep, h.op_back hsource, if_neg (h.ne_new (hg.has_of_multiplicity hedge).1), hback]
    refine he.conversion.imp_right fun ⟨hconv, hfeeds⟩ => ⟨hconv, fun y hy hytarget hyop hyleaves => ?_⟩
    obtain ⟨hysource, -, hpos⟩ := (h.edge y).1 hy
    rw [h.op_back hysource] at hyop
    split at hyop
    · exact hnew hyop
    · rw [h.leaves_iff hg hysource] at hyleaves
      exact hfeeds _ hpos (by rw [hytarget, hback]) hyop hyleaves

/-- No step takes such a conversion away. -/
theorem Step.hanging {g g' : Graph} (hg : g.Consistent) (hg' : g'.Consistent) (h : Step g g') (hhangs : Hanging g) :
    Hanging g' := by
  obtain ⟨e, hheads, hloose⟩ := hhangs
  cases h with
  | @untag x mid hsplice hvalue hadd hop _ =>
      by_cases hsource : x.source = e.source
      · -- What the conversion gives its reader is untagged, and that is the new conversion.
        have htarget := hloose.only x hsplice.edge hsource
        have hx : Heads g x :=
          ⟨hsplice.edge, hvalue, by rw [htarget]; exact hheads.begins, by rw [htarget]; exact hheads.op⟩
        exact ⟨_, hx.splice hsplice hvalue hg hg', .splice hsplice hvalue hg (.inl hop)⟩
      · have hne : e ≠ x := by
          rintro rfl
          exact hsource rfl
        exact ⟨e, hheads.splice_of_ne hsplice hvalue hg hg' hne,
          hloose.splice_of_ne hsplice hvalue hg (by rw [hop]; decide) hheads.edge hsource⟩
  | @tag x mid hsplice hvalue hadd hop _ =>
      -- What is tagged is an addition, so it is not the conversion that hangs.
      have hsource : x.source ≠ e.source := (hloose.op_ne (by rw [hadd]; decide)).symm
      have hne : e ≠ x := by
        rintro rfl
        exact hsource rfl
      exact ⟨e, hheads.splice_of_ne hsplice hvalue hg hg' hne,
        hloose.splice_of_ne hsplice hvalue hg (by rw [hop]; decide) hheads.edge hsource⟩
  | sequence hsequence hadd hop hfed _ _ hrole hnext =>
      exact ⟨e, hheads.sequence hsequence hg hg', hloose.sequence hsequence hadd hop hfed hrole hnext⟩
  | test hrename hold hnew _ =>
      refine ⟨_, hheads.renamed hrename hg hg' ?_ ?_ ?_, hloose.renamed hrename hg ?_ ?_ hheads.edge⟩
      · simp [hold]
      · simp [hnew]
      · simp [hnew]
      · simp [hold]
      · simp [hnew]
  | add hrename hold hnew _ =>
      refine ⟨_, hheads.renamed hrename hg hg' ?_ ?_ ?_, hloose.renamed hrename hg ?_ ?_ hheads.edge⟩
      · simp [hold]
      · simp [hnew]
      · simp [hnew]
      · simp [hold]
      · simp [hnew]

theorem Lowers.hanging {g g' : Graph} (h : Lowers g g') (hhangs : Hanging g) : Hanging g' :=
  h.keeps Hanging (fun hs hs' hstep => hstep.hanging hs hs') hhangs

/-! ## Additions that leave one behind -/

/-- An addition that begins a block, or one that the first node of a block reads and
    control does not leave. -/
def Exposed (g : Graph) (add : NodeId) (e : Edge) : Prop :=
  Heads g e ∧ (e.target = add ∨ e.source = add ∧ ¬ g.Leaves add)

section Spliced

variable {g g' : Graph} {x : Edge} {mid : NodeId} (h : Spliced g g' x mid) (hvalue : x.role.isValue = true)
  (hg : g.Consistent) (hg' : g'.Consistent)
include h hvalue hg hg'

theorem Exposed.splice_of_ne {add : NodeId} {e : Edge} (he : Exposed g add e) (hne : e ≠ x) : Exposed g' add e := by
  obtain ⟨hheads, hend⟩ := he
  refine ⟨hheads.splice_of_ne h hvalue hg hg' hne, hend.imp_right fun ⟨hsource, hfree⟩ => ⟨hsource, ?_⟩⟩
  exact fun hleaves => hfree ((h.leaves_iff hvalue).1 hleaves)

theorem hanging_of_untag (hheads : Heads g x) (hop : g'.op mid = .untagFixnum) : Hanging g' :=
  ⟨_, hheads.splice h hvalue hg hg', .splice h hvalue hg (.inl hop)⟩

theorem hanging_of_tag (hheads : Heads g x) (hfree : ¬ g.Leaves x.source) (hop : g'.op mid = .tagFixnum) :
    Hanging g' :=
  ⟨_, hheads.splice h hvalue hg hg', .splice h hvalue hg (.inr ⟨hop, hfree⟩)⟩

end Spliced

theorem Exposed.renamed {g g' : Graph} {old new add : NodeId} (h : Renamed g g' old new) (hg : g.Consistent)
    (hg' : g'.Consistent) (hold : g.op old ≠ .start ∧ g.op old ≠ .merge)
    (hnew : g'.op new ≠ .start ∧ g'.op new ≠ .merge) (hphi : g'.op new ≠ .phi) (hadd : g.op add = .fixnumAdd)
    (hne : add ≠ old) {e : Edge} (he : Exposed g add e) : Exposed g' add (renameEdge old new e) := by
  obtain ⟨hheads, hend⟩ := he
  have hlive : g.has add = true := has_of_op_ne_invalid (by rw [hadd]; decide)
  have hkeep : rename old new add = add := if_neg hne
  have hback : rename new old add = add := if_neg (h.ne_new hlive)
  refine ⟨hheads.renamed h hg hg' hold hnew hphi, ?_⟩
  rw [renameEdge_source, renameEdge_target, h.leaves_iff hg hne, hback]
  refine hend.imp (fun htarget => ?_) fun ⟨hsource, hfree⟩ => ⟨?_, hfree⟩
  · rw [htarget, hkeep]
  · rw [hsource, hkeep]

/-- An exposed addition stays so until it is lowered, unless a conversion comes to hang
    before. -/
theorem Step.exposed {g g' : Graph} {add : NodeId} (hg : g.Consistent) (hg' : g'.Consistent) (h : Step g g')
    (hadd : g'.op add = .fixnumAdd) (hexposed : ∃ e, Exposed g add e) : (∃ e, Exposed g' add e) ∨ Hanging g' := by
  obtain ⟨e, hexposed⟩ := hexposed
  have haddOld := (h.unmade (by decide) hadd).1
  cases h with
  | @untag x mid hsplice hvalue _ hop _ =>
      by_cases hne : e = x
      · subst hne
        exact .inr (hanging_of_untag hsplice hvalue hg hg' hexposed.1 hop)
      · exact .inl ⟨e, hexposed.splice_of_ne hsplice hvalue hg hg' hne⟩
  | @tag x mid hsplice hvalue _ hop _ =>
      by_cases hne : e = x
      · subst hne
        obtain ⟨hheads, htarget | ⟨rfl, hfree⟩⟩ := hexposed
        · exact .inl ⟨_, hheads.splice hsplice hvalue hg hg', .inl htarget⟩
        · exact .inr (hanging_of_tag hsplice hvalue hg hg' hheads hfree hop)
      · exact .inl ⟨e, hexposed.splice_of_ne hsplice hvalue hg hg' hne⟩
  | sequence hsequence _ hop _ _ _ hrole hnext =>
      obtain ⟨hheads, hend⟩ := hexposed
      -- Control begins to leave the tag, and no addition.
      refine .inl ⟨e, hheads.sequence hsequence hg hg', hend.imp_right fun ⟨hsource, hfree⟩ => ⟨hsource, ?_⟩⟩
      rw [hsequence.leaves_iff hrole hnext, not_or]
      refine ⟨hfree, ?_⟩
      rintro rfl
      rw [hop] at haddOld
      cases haddOld
  | test hrename hold hnew _ =>
      refine .inl ⟨_, hexposed.renamed hrename hg hg' ?_ ?_ ?_ haddOld ?_⟩
      · simp [hold]
      · simp [hnew]
      · simp [hnew]
      · exact ((hrename.op_eq_iff (by decide) (by simp [hnew])).1 hadd).2
  | add hrename hold hnew _ =>
      refine .inl ⟨_, hexposed.renamed hrename hg hg' ?_ ?_ ?_ haddOld ?_⟩
      · simp [hold]
      · simp [hnew]
      · simp [hnew]
      · exact ((hrename.op_eq_iff (by decide) (by simp [hnew])).1 hadd).2

theorem Lowers.exposed {g g' : Graph} {add : NodeId} (h : Lowers g g') (hadd : g'.op add = .fixnumAdd)
    (hexposed : ∃ e, Exposed g add e) : (∃ e, Exposed g' add e) ∨ Hanging g' := by
  have hrun : g'.op add = .fixnumAdd → (∃ e, Exposed g' add e) ∨ Hanging g' := by
    refine h.keeps (fun s => s.op add = .fixnumAdd → (∃ e, Exposed s add e) ∨ Hanging s)
      (fun hs hs' hstep hholds hop => ?_) fun _ => .inl hexposed
    rcases hholds (hstep.unmade (by decide) hop).1 with hexposed | hhangs
    · exact hstep.exposed hs hs' hop hexposed
    · exact .inr (hstep.hanging hs hs' hhangs)
  exact hrun hadd

/-! ## What is left after a run -/

/-- Untagging the operands of an addition that begins a block leaves a conversion
    hanging. -/
theorem hanging_of_untagOperands {g g' : Graph} {add : NodeId} {e : Edge} (hg : g.Consistent)
    (hadd : g.op add = .fixnumAdd) (hheads : Heads g e) (htarget : e.target = add)
    (h : (g.inputsWhere add Role.isValue).foldlM untagOperand g = .ok g') : Hanging g' := by
  have hmem : e ∈ g.inputsWhere add Role.isValue := by
    rw [← htarget]
    exact List.mem_filter.2 ⟨hg.mem_inputs (multiplicity_pos.1 hheads.edge), hheads.value⟩
  refine (foldlM_reaches (fun s => Reached g s ∧ Heads s e) (fun s => Reached g s ∧ Hanging s) hmem ?_ ?_ ?_ h
    ⟨.refl hg, hheads⟩).2
  · rintro s x hx hne s' ⟨hs, hheads⟩ hstep
    have hs' := reached_of_mem_inputsWhere hg hadd hx hs hstep
    obtain ⟨-, mid, hsplice, -⟩ := untagOperand_eq_ok hs.consistent hstep
    exact ⟨hs.trans hs', hheads.splice_of_ne hsplice (mem_inputsWhere_isValue hg x hx).2 hs.consistent hs'.consistent
      hne.symm⟩
  · rintro s s' ⟨hs, hheads⟩ hstep
    have hs' := reached_of_mem_inputsWhere hg hadd hmem hs hstep
    obtain ⟨-, mid, hsplice, hop, -⟩ := untagOperand_eq_ok hs.consistent hstep
    exact ⟨hs.trans hs', hanging_of_untag hsplice hheads.value hs.consistent hs'.consistent hheads hop⟩
  · rintro s x hx s' ⟨hs, hhangs⟩ hstep
    have hs' := reached_of_mem_inputsWhere hg hadd hx hs hstep
    exact ⟨hs.trans hs', hs'.lowers.hanging hhangs⟩

/-- Another value that the first node of a block needs is needed there still, or comes
    to hang; and control does not begin to leave any node. -/
theorem heads_of_untagOperands {g g' : Graph} {add : NodeId} {e : Edge} (hg : g.Consistent)
    (hadd : g.op add = .fixnumAdd) (hheads : Heads g e)
    (h : (g.inputsWhere add Role.isValue).foldlM untagOperand g = .ok g') :
    (Heads g' e ∨ Hanging g') ∧ ∀ n, g'.Leaves n → g.Leaves n := by
  refine (foldlM_keeps_of_mem (fun s => Reached g s ∧ (Heads s e ∨ Hanging s) ∧ ∀ n, s.Leaves n → g.Leaves n) ?_ h
    ⟨.refl hg, .inl hheads, fun _ => id⟩).2
  rintro s x hx s' ⟨hs, hheads, hleaves⟩ hstep
  have hs' := reached_of_mem_inputsWhere hg hadd hx hs hstep
  have hvalue := (mem_inputsWhere_isValue hg x hx).2
  obtain ⟨-, mid, hsplice, hop, -⟩ := untagOperand_eq_ok hs.consistent hstep
  refine ⟨hs.trans hs', ?_, fun n hn => hleaves n ((hsplice.leaves_iff hvalue).1 hn)⟩
  rcases hheads with hheads | hhangs
  · rcases eq_or_ne e x with rfl | hne
    · exact .inr (hanging_of_untag hsplice hvalue hs.consistent hs'.consistent hheads hop)
    · exact .inl (hheads.splice_of_ne hsplice hvalue hs.consistent hs'.consistent hne)
  · exact .inr (hs'.lowers.hanging hhangs)

/-- Tagging the uses of an addition that control does not leave leaves a conversion
    hanging, if the first node of a block is among them. -/
theorem hanging_of_tagUses {g : Graph} {tagged : List NodeId × Graph} {add : NodeId} {e : Edge} (hg : g.Consistent)
    (hadd : g.op add = .fixnumAdd) (hheads : Heads g e) (hsource : e.source = add) (hfree : ¬ g.Leaves add)
    (h : (g.outputsWhere add Role.isValue).foldlM tagUse ([], g) = .ok tagged) : Hanging tagged.2 := by
  have hmem : e ∈ g.outputsWhere add Role.isValue := by
    rw [← hsource]
    exact List.mem_filter.2 ⟨multiplicity_pos.1 hheads.edge, hheads.value⟩
  refine (foldlM_reaches (fun state => Reached g state.2 ∧ Heads state.2 e ∧ ¬ state.2.Leaves add)
    (fun state => Reached g state.2 ∧ Hanging state.2) hmem ?_ ?_ ?_ h ⟨.refl hg, hheads, hfree⟩).2
  · rintro s x hx hne s' ⟨hs, hheads, hfree⟩ hstep
    have hs' := reached_of_mem_outputsWhere hg hadd hx hs hstep
    obtain ⟨-, mid, -, hsplice, -⟩ := tagUse_eq_ok hs.consistent hstep
    have hvalue := (mem_outputsWhere_isValue hg x hx).2
    refine ⟨hs.trans hs', hheads.splice_of_ne hsplice hvalue hs.consistent hs'.consistent hne.symm, ?_⟩
    rw [hsplice.leaves_iff hvalue]
    exact hfree
  · rintro s s' ⟨hs, hheads, hfree⟩ hstep
    have hs' := reached_of_mem_outputsWhere hg hadd hmem hs hstep
    obtain ⟨-, mid, -, hsplice, hop, -⟩ := tagUse_eq_ok hs.consistent hstep
    rw [← hsource] at hfree
    exact ⟨hs.trans hs', hanging_of_tag hsplice hheads.value hs.consistent hs'.consistent hheads hfree hop⟩
  · rintro s x hx s' ⟨hs, hhangs⟩ hstep
    have hs' := reached_of_mem_outputsWhere hg hadd hx hs hstep
    exact ⟨hs.trans hs', hs'.lowers.hanging hhangs⟩

/-- Lowering an exposed addition leaves a conversion hanging. -/
theorem hanging_of_lowerAdd {g g' : Graph} {add : NodeId} (hg : g.Consistent) (hadd : g.op add = .fixnumAdd)
    (hexposed : ∃ e, Exposed g add e) (h : lowerAdd g add = .ok g') : Hanging g' := by
  obtain ⟨untagged, tagged, sequenced, new, huntagged, htagged, hu, ⟨ht, -, -, -⟩, hs, -, hrename, hop, hprops⟩ :=
    lowerAdd_phases hg hadd h
  have huadd := (hu.adds add).2 hadd
  have hsadd := (hs.adds add).2 ((ht.adds add).2 huadd)
  have hlast : Hanging tagged.2 → Hanging g' := fun hhangs =>
    (Step.add hrename hsadd hop hprops).hanging hs.consistent (consistent_lowerAdd h hg) (hs.lowers.hanging hhangs)
  have hrest : Hanging untagged → Hanging g' := fun hhangs => hlast (ht.lowers.hanging hhangs)
  -- An addition may be its own operand, and then its use hangs once the operands are untagged.
  obtain ⟨e, hheads, htarget | ⟨hsource, hfree⟩⟩ := hexposed
  · exact hrest (hanging_of_untagOperands hg hadd hheads htarget huntagged)
  · obtain ⟨hheads | hhangs, hleaves⟩ := heads_of_untagOperands hg hadd hheads huntagged
    · exact hlast (hanging_of_tagUses hu.consistent huadd hheads hsource (fun hn => hfree (hleaves add hn)) htagged)
    · exact hrest hhangs

/-- An addition stays exposed until its turn comes, and what hangs then hangs to the
    end. -/
theorem hanging_of_lowerAdds {adds : List NodeId} {g g' : Graph} (hg : g.Consistent) (hnodup : adds.Nodup)
    (hadds : ∀ id ∈ adds, g.op id = .fixnumAdd) (hexposed : (∃ add ∈ adds, ∃ e, Exposed g add e) ∨ Hanging g)
    (h : adds.foldlM lowerAdd g = .ok g') : Hanging g' := by
  induction adds generalizing g with
  | nil =>
      rw [List.foldlM_nil, pure_eq_ok] at h
      subst h
      exact hexposed.resolve_left (by simp)
  | cons add rest ih =>
      rw [List.foldlM_cons] at h
      obtain ⟨next, hnext, hrest⟩ := bind_eq_ok.1 h
      have hadd := hadds add List.mem_cons_self
      have hleft := op_eq_fixnumAdd_of_lowerAdd hg hnodup hadds hnext
      obtain ⟨hlowers, -⟩ := lowers_of_lowerAdd hg hadd hnext
      refine ih (consistent_lowerAdd hnext hg) (List.nodup_cons.1 hnodup).2 hleft ?_ hrest
      obtain ⟨x, hx, hexposed⟩ | hhangs := hexposed
      · rcases List.mem_cons.1 hx with rfl | hx
        · exact .inr (hanging_of_lowerAdd hg hadd hexposed hnext)
        · exact (hlowers.exposed (hleft x hx) hexposed).imp_left fun hexposed => ⟨x, hx, hexposed⟩
      · exact .inr (hlowers.hanging hhangs)

/-- A run leaves a conversion hanging if an addition is exposed when it begins. -/
theorem hanging_of_run {g : Graph} {r : Change} {add : NodeId} (hg : g.Consistent) (hadd : g.op add = .fixnumAdd)
    (hexposed : ∃ e, Exposed g add e) (h : run g = .ok r) : Hanging r.graph := by
  obtain ⟨-, tested, htested, hadded⟩ := run_phases h
  obtain ⟨hlowers, hconsistent, hadds⟩ := lowers_of_run_tests hg htested
  have hmem : add ∈ g.find .fixnumAdd := (mem_find_iff (by decide)).2 hadd
  have hexposedTested := hlowers.exposed ((hadds add).2 hmem) hexposed
  exact hanging_of_lowerAdds hconsistent (g.nodup_ids.filter _) (fun id hid => (hadds id).2 hid)
    (hexposedTested.imp_left fun hexposed => ⟨add, hmem, hexposed⟩) hadded

end SeaOfNodes.Pass.Tagging
