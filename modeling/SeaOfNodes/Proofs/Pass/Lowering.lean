/-
  SeaOfNodes.Proofs.Pass.Lowering

  Lowering in small steps.  Every run of the pass is a sequence of five kinds of steps:
  an untag or a tag node is spliced onto a value edge at an addition, a tag node is put
  in control flow behind its addition, and a test or an addition is renamed to its
  lowered form.  What each step keeps every run keeps, so facts about lowered graphs
  are proved once for each kind of step.
-/
import SeaOfNodes.Pass.Tagging
import SeaOfNodes.Proofs.Graph.Conversions
import SeaOfNodes.Proofs.Pass.Consistent

namespace SeaOfNodes.Pass.Tagging

open SeaOfNodes.Graph Relation

/-- One step of lowering. -/
inductive Step (g g' : Graph) : Prop
  /-- An operand of an addition is untagged. -/
  | untag {e : Edge} {mid : NodeId} (hsplice : Spliced g g' e mid) (hvalue : e.role.isValue = true)
      (hadd : g.op e.target = .fixnumAdd) (hop : g'.op mid = .untagFixnum) (hprops : g'.props mid = .empty)
  /-- A use of an addition reads it through a tag node. -/
  | tag {e : Edge} {mid : NodeId} (hsplice : Spliced g g' e mid) (hvalue : e.role.isValue = true)
      (hadd : g.op e.source = .fixnumAdd) (hop : g'.op mid = .tagFixnum) (hprops : g'.props mid = .empty)
  /-- A tag node runs between its addition and a node that control leaves it to. -/
  | sequence {add mid next : NodeId} {role : Role} (hsequence : Sequenced g g' add mid next)
      (hadd : g.op add = .fixnumAdd) (hop : g.op mid = .tagFixnum)
      (hfed : 0 < g.multiplicity ⟨add, mid, .value⟩) (hread : g.Read mid) (hfree : ¬ g.Controlled mid)
      (hrole : role.isControl = true) (hnext : 0 < g.multiplicity ⟨add, next, role⟩)
  /-- A test for small integers becomes one of tags. -/
  | test {old new : NodeId} (hrename : Renamed g g' old new) (hold : g.op old = .kindIs)
      (hnew : g'.op new = .isTaggedFixnum) (hprops : g'.props new = carriedProps g old)
  /-- An addition becomes one of machine integers. -/
  | add {old new : NodeId} (hrename : Renamed g g' old new) (hold : g.op old = .fixnumAdd)
      (hnew : g'.op new = .int64Add) (hprops : g'.props new = carriedProps g old)

/-- A graph becomes another in steps of lowering, each between consistent graphs. -/
def Lowers : Graph → Graph → Prop :=
  ReflTransGen fun g g' => g.Consistent ∧ g'.Consistent ∧ Step g g'

/-- What every step keeps lowering keeps. -/
theorem Lowers.keeps {g g' : Graph} (h : Lowers g g') (holds : Graph → Prop)
    (hstep : ∀ {g g' : Graph}, g.Consistent → g'.Consistent → Step g g' → holds g → holds g') (hg : holds g) :
    holds g' := by
  induction h with
  | refl => exact hg
  | tail _ hlast ih => exact hstep hlast.1 hlast.2.1 hlast.2.2 ih

theorem Step.noneDangles_iff {g g' : Graph} (hg : g.Consistent) (hg' : g'.Consistent) (h : Step g g') :
    g'.NoneDangles ↔ g.NoneDangles := by
  cases h with
  | untag hsplice hvalue _ _ _ => exact hsplice.noneDangles_iff hvalue hg hg'
  | tag hsplice hvalue _ _ _ => exact hsplice.noneDangles_iff hvalue hg hg'
  | sequence hsequence _ _ _ hread _ hrole hnext => exact hsequence.noneDangles_iff hg hg' hrole hnext hread
  | test hrename hold hnew _ => exact hrename.noneDangles_iff hg hg' (by rw [hold, hnew]; rfl)
  | add hrename hold hnew _ => exact hrename.noneDangles_iff hg hg' (by rw [hold, hnew]; rfl)

theorem Lowers.noneDangles_iff {g g' : Graph} (h : Lowers g g') : g'.NoneDangles ↔ g.NoneDangles := by
  refine h.keeps (fun s => s.NoneDangles ↔ g.NoneDangles) (fun hs hs' hstep hiff => ?_) Iff.rfl
  rw [hstep.noneDangles_iff hs hs', hiff]

/-- The operations that lowering makes nodes of. -/
def made : List Op := [.untagFixnum, .tagFixnum, .isTaggedFixnum, .int64Add]

/-- A node with an operation that lowering does not make was there before the step. -/
theorem Step.unmade {g g' : Graph} (h : Step g g') {op : Op} (hop : op ≠ .invalid ∧ op ∉ made) {id : NodeId}
    (hid : g'.op id = op) : g.op id = op ∧ g'.props id = g.props id := by
  have hne : ∀ {mid : NodeId}, g'.op mid ∈ made → id ≠ mid := by
    rintro mid hmid rfl
    rw [hid] at hmid
    exact hop.2 hmid
  have hspliced : ∀ {e : Edge} {mid : NodeId}, Spliced g g' e mid → g'.op mid ∈ made →
      g.op id = op ∧ g'.props id = g.props id := by
    intro e mid hsplice hmid
    rw [← hid, hsplice.op id (hne hmid), hsplice.props id (hne hmid)]
    exact ⟨rfl, rfl⟩
  have hrenamed : ∀ {old new : NodeId}, Renamed g g' old new → g'.op new ∈ made →
      g.op id = op ∧ g'.props id = g.props id := by
    intro old new hrename hnew
    have hold : id ≠ old := (hrename.has_back (has_of_op_ne_invalid (by rw [hid]; exact hop.1))).1
    rw [← hid, hrename.op id hold (hne hnew), hrename.props id hold (hne hnew)]
    exact ⟨rfl, rfl⟩
  cases h with
  | untag hsplice _ _ hmid _ => exact hspliced hsplice (by rw [hmid]; decide)
  | tag hsplice _ _ hmid _ => exact hspliced hsplice (by rw [hmid]; decide)
  | sequence hsequence _ _ _ _ _ _ _ => exact ⟨(hsequence.nodes.op id).symm.trans hid, hsequence.nodes.props id⟩
  | test hrename _ hnew _ => exact hrenamed hrename (by rw [hnew]; decide)
  | add hrename _ hnew _ => exact hrenamed hrename (by rw [hnew]; decide)

theorem Lowers.unmade {g g' : Graph} (h : Lowers g g') {op : Op} (hop : op ≠ .invalid ∧ op ∉ made) {id : NodeId}
    (hid : g'.op id = op) : g.op id = op ∧ g'.props id = g.props id := by
  refine h.keeps (fun s => s.op id = op → g.op id = op ∧ s.props id = g.props id) (fun _ _ hstep hs hid' => ?_)
    (fun hid' => ⟨hid', rfl⟩) hid
  obtain ⟨hback, hprops⟩ := hstep.unmade hop hid'
  obtain ⟨hfirst, hprops'⟩ := hs hback
  exact ⟨hfirst, hprops.trans hprops'⟩

/-! ## A run in steps -/

theorem spliced_of_convert {op : Op} {g : Graph} {e : Edge} {r : NodeId × Graph} (hg : g.Consistent)
    (h : convert op g e = .ok r) : Spliced g r.2 e r.1 ∧ r.2.op r.1 = op ∧ r.2.props r.1 = .empty := by
  obtain ⟨spliced, hspliced, hr⟩ := bind_eq_ok.1 h
  cases hr
  exact hg.spliced_of_interdict hspliced

/-- A graph is reached by lowering, with all nodes still there and every addition
    still to do. -/
structure Reached (g s : Graph) : Prop where
  lowers : Lowers g s
  consistent : s.Consistent
  live : ∀ id, g.has id = true → s.has id = true
  adds : ∀ id, s.op id = .fixnumAdd ↔ g.op id = .fixnumAdd

theorem Reached.refl {g : Graph} (hg : g.Consistent) : Reached g g :=
  ⟨.refl, hg, fun _ => id, fun _ => Iff.rfl⟩

theorem Reached.trans {g s t : Graph} (h : Reached g s) (h' : Reached s t) : Reached g t :=
  ⟨h.lowers.trans h'.lowers, h'.consistent, fun id hid => h'.live id (h.live id hid),
    fun id => (h'.adds id).trans (h.adds id)⟩

/-- Splicing a node that is no addition leaves the additions to do. -/
theorem Step.reached_of_spliced {g g' : Graph} {e : Edge} {mid : NodeId} (h : Step g g') (hg : g.Consistent)
    (hg' : g'.Consistent) (hsplice : Spliced g g' e mid) (hop : g'.op mid ≠ .fixnumAdd) : Reached g g' := by
  refine ⟨.single ⟨hg, hg', h⟩, hg', fun id hid => (hsplice.has id).2 (.inl hid), fun id => ?_⟩
  by_cases hid : id = mid
  · subst hid
    exact iff_of_false hop (op_ne_of_fresh hsplice.fresh (by decide))
  · rw [hsplice.op id hid]

/-- Splice an untag node onto an operand of an addition. -/
def untagOperand (g : Graph) (e : Edge) : Except Misuse Graph := do return (← convert .untagFixnum g e).2

theorem untagOperand_eq_ok {g g' : Graph} {e : Edge} (hg : g.Consistent) (h : untagOperand g e = .ok g') :
    g'.Consistent ∧ ∃ mid, Spliced g g' e mid ∧ g'.op mid = .untagFixnum ∧ g'.props mid = .empty := by
  obtain ⟨r, hr, hg'⟩ := bind_eq_ok.1 h
  cases hg'
  exact ⟨consistent_convert hr hg, r.1, spliced_of_convert hg hr⟩

theorem tagUse_eq_ok {state state' : List NodeId × Graph} {e : Edge} (hs : state.2.Consistent)
    (h : tagUse state e = .ok state') :
    state'.2.Consistent ∧ ∃ mid, state'.1 = state.1 ++ [mid] ∧ Spliced state.2 state'.2 e mid ∧
      state'.2.op mid = .tagFixnum ∧ state'.2.props mid = .empty := by
  obtain ⟨r, hr, hstate'⟩ := bind_eq_ok.1 h
  cases hstate'
  exact ⟨consistent_convert hr hs, r.1, rfl, spliced_of_convert hs hr⟩

theorem reached_of_untagOperand {g g' : Graph} {e : Edge} (hg : g.Consistent) (hvalue : e.role.isValue = true)
    (hadd : g.op e.target = .fixnumAdd) (h : untagOperand g e = .ok g') : Reached g g' := by
  obtain ⟨hg', mid, hsplice, hop, hprops⟩ := untagOperand_eq_ok hg h
  exact (Step.untag hsplice hvalue hadd hop hprops).reached_of_spliced hg hg' hsplice (by rw [hop]; decide)

theorem reached_of_tagUse {state state' : List NodeId × Graph} {e : Edge} (hs : state.2.Consistent)
    (hvalue : e.role.isValue = true) (hadd : state.2.op e.source = .fixnumAdd) (h : tagUse state e = .ok state') :
    Reached state.2 state'.2 := by
  obtain ⟨hs', mid, -, hsplice, hop, hprops⟩ := tagUse_eq_ok hs h
  exact (Step.tag hsplice hvalue hadd hop hprops).reached_of_spliced hs hs' hsplice (by rw [hop]; decide)

theorem mem_inputsWhere_isValue {g : Graph} (hg : g.Consistent) {add : NodeId} :
    ∀ e ∈ g.inputsWhere add Role.isValue, e.target = add ∧ e.role.isValue = true := fun e he =>
  ⟨hg.target_eq add e (List.mem_of_mem_filter he), (List.mem_filter.1 he).2⟩

theorem mem_outputsWhere_isValue {g : Graph} (hg : g.Consistent) {add : NodeId} :
    ∀ e ∈ g.outputsWhere add Role.isValue, e.source = add ∧ e.role.isValue = true := fun e he =>
  ⟨hg.source_eq add e (List.mem_of_mem_filter he), (List.mem_filter.1 he).2⟩

/-- The steps of a loop over the operands of an addition. -/
theorem reached_of_mem_inputsWhere {g s s' : Graph} {add : NodeId} {e : Edge} (hg : g.Consistent)
    (hadd : g.op add = .fixnumAdd) (he : e ∈ g.inputsWhere add Role.isValue) (hs : Reached g s)
    (h : untagOperand s e = .ok s') : Reached s s' := by
  obtain ⟨htarget, hvalue⟩ := mem_inputsWhere_isValue hg e he
  refine reached_of_untagOperand hs.consistent hvalue ?_ h
  rw [htarget, hs.adds]
  exact hadd

/-- The steps of a loop over its uses. -/
theorem reached_of_mem_outputsWhere {g : Graph} {state state' : List NodeId × Graph} {add : NodeId} {e : Edge}
    (hg : g.Consistent) (hadd : g.op add = .fixnumAdd) (he : e ∈ g.outputsWhere add Role.isValue)
    (hs : Reached g state.2) (h : tagUse state e = .ok state') : Reached state.2 state'.2 := by
  obtain ⟨hsource, hvalue⟩ := mem_outputsWhere_isValue hg e he
  refine reached_of_tagUse hs.consistent hvalue ?_ h
  rw [hsource, hs.adds]
  exact hadd

/-- A tag node that is not in control flow yet. -/
structure Pending (g : Graph) (add mid : NodeId) : Prop where
  op : g.op mid = .tagFixnum
  fed : 0 < g.multiplicity ⟨add, mid, .value⟩
  read : g.Read mid
  free : ¬ g.Controlled mid

/-- What holds while tag nodes are spliced onto the uses of an addition. -/
structure Tagged (g : Graph) (add : NodeId) (state : List NodeId × Graph) : Prop where
  reached : Reached g state.2
  nodup : state.1.Nodup
  new : ∀ mid ∈ state.1, g.has mid = false
  pending : ∀ mid ∈ state.1, Pending state.2 add mid

theorem Tagged.tagUse {g : Graph} {add : NodeId} {state state' : List NodeId × Graph} {e : Edge}
    (h : Tagged g add state) (hg : g.Consistent) (hadd : g.op add = .fixnumAdd)
    (he : e ∈ g.outputsWhere add Role.isValue) (hstep : tagUse state e = .ok state') : Tagged g add state' := by
  have hreached := h.reached.trans (reached_of_mem_outputsWhere hg hadd he h.reached hstep)
  obtain ⟨hsource, hvalue⟩ := mem_outputsWhere_isValue hg e he
  obtain ⟨-, new, htags, hsplice, hop, -⟩ := tagUse_eq_ok h.reached.consistent hstep
  have hne : ∀ mid ∈ state.1, mid ≠ new := fun mid hmid =>
    hsplice.ne_mid (h.reached.consistent.has_of_multiplicity (h.pending mid hmid).fed).2
  have hmem : ∀ mid ∈ state'.1, mid ∈ state.1 ∨ mid = new := by
    intro mid hmid
    rw [htags, List.mem_append, List.mem_singleton] at hmid
    exact hmid
  refine ⟨hreached, ?_, fun mid hmid => ?_, fun mid hmid => ?_⟩
  · rw [htags]
    refine List.nodup_append.2 ⟨h.nodup, List.nodup_singleton _, fun mid hmid other hother => ?_⟩
    rw [List.mem_singleton.1 hother]
    exact hne mid hmid
  · rcases hmem mid hmid with hmid | rfl
    · exact h.new mid hmid
    · rw [← Bool.not_eq_true]
      intro hlive
      exact hsplice.ne_mid (h.reached.live _ hlive) rfl
  · rcases hmem mid hmid with hmid | rfl
    · obtain ⟨hmidOp, hfed, hread, hfree⟩ := h.pending mid hmid
      refine ⟨by rw [hsplice.op mid (hne mid hmid), hmidOp], ?_, (hsplice.read_iff hvalue (hne mid hmid)).2 hread,
        fun hcontrolled => hfree ((hsplice.controlled_iff hvalue).1 hcontrolled)⟩
      -- The edge that is spliced leads to an old node, so it is not the one that feeds the tag.
      refine (hsplice.kept _ hfed).resolve_left fun heq => ?_
      have htarget : g.has mid = true := by
        rw [show mid = e.target from congrArg Edge.target heq]
        exact hg.has_target (List.mem_of_mem_filter he)
      rw [h.new mid hmid] at htarget
      cases htarget
    · refine ⟨hop, ?_, ⟨e.target, e.role, hvalue, hsplice.tail⟩, fun hcontrolled => ?_⟩
      · rw [← hsource, ← spliceHead_of_isValue hvalue]
        exact hsplice.head
      · have hlive := h.reached.consistent.has_of_controlled ((hsplice.controlled_iff hvalue).1 hcontrolled)
        exact hsplice.ne_mid hlive rfl

theorem reached_of_untagOperands {g untagged : Graph} {add : NodeId} (hg : g.Consistent)
    (hadd : g.op add = .fixnumAdd) (h : (g.inputsWhere add Role.isValue).foldlM untagOperand g = .ok untagged) :
    Reached g untagged :=
  foldlM_keeps_of_mem (Reached g)
    (fun _ _ he _ hs hstep => hs.trans (reached_of_mem_inputsWhere hg hadd he hs hstep)) h (.refl hg)

/-- The new tag nodes are pending until the next phase, which needs to know that they are. -/
theorem tagged_of_tagUses {g : Graph} {add : NodeId} {state : List NodeId × Graph} (hg : g.Consistent)
    (hadd : g.op add = .fixnumAdd) (h : (g.outputsWhere add Role.isValue).foldlM tagUse ([], g) = .ok state) :
    Tagged g add state :=
  foldlM_keeps_of_mem (Tagged g add) (fun _ _ he _ hstate hstep => hstate.tagUse hg hadd he hstep) h
    ⟨.refl hg, List.nodup_nil, by simp, by simp⟩

theorem Step.reached_of_sequenced {g g' : Graph} {add mid next : NodeId} (h : Step g g') (hg : g.Consistent)
    (hg' : g'.Consistent) (hsequence : Sequenced g g' add mid next) : Reached g g' := by
  refine ⟨.single ⟨hg, hg', h⟩, hg', fun id hid => ?_, fun id => ?_⟩
  · rw [hsequence.nodes.has]
    exact hid
  · rw [hsequence.nodes.op]

/-- No value edge is touched when another tag node is put in control flow, and control is led
    through that one only. -/
theorem Pending.sequence {g g' : Graph} {add mid next other : NodeId} {role : Role} (h : Pending g add other)
    (hsequence : Sequenced g g' add mid next) (hrole : role.isControl = true)
    (hnext : 0 < g.multiplicity ⟨add, next, role⟩) (hne : other ≠ mid) : Pending g' add other := by
  obtain ⟨hop, hfed, ⟨m, role', hvalue, hread⟩, hfree⟩ := h
  refine ⟨by rw [hsequence.nodes.op, hop], (hsequence.edge _).2 (.inl hfed),
    ⟨m, role', hvalue, (hsequence.edge _).2 (.inl hread)⟩, fun hcontrolled => ?_⟩
  exact ((hsequence.controlled_iff hrole hnext).1 hcontrolled).elim hfree hne

/-- Each tag node in turn is put in control flow; those to come stay out of it. -/
theorem threaded_of_sequenceTags {g g' : Graph} {add next : NodeId} {tags : List NodeId} {role : Role}
    (hg : g.Consistent) (hadd : g.op add = .fixnumAdd) (hrole : role.isControl = true)
    (hnext : 0 < g.multiplicity ⟨add, next, role⟩) (hnodup : tags.Nodup)
    (hpending : ∀ mid ∈ tags, Pending g add mid) (h : tags.foldlM (sequenceTag add next) g = .ok g') :
    Reached g g' ∧ Threaded g g' tags := by
  induction tags generalizing g with
  | nil =>
      rw [List.foldlM_nil, pure_eq_ok] at h
      subst h
      exact ⟨.refl hg, .refl g []⟩
  | cons mid rest ih =>
      rw [List.foldlM_cons] at h
      obtain ⟨sequenced, hsequenced, hrest⟩ := bind_eq_ok.1 h
      have hconsistent := consistent_sequenceTag hsequenced hg
      obtain ⟨joined, hjoined, hlinked⟩ := bind_eq_ok.1 hsequenced
      have hsequence := sequenced_of_connect hjoined hlinked
      obtain ⟨hnotRest, hnodup⟩ := List.nodup_cons.1 hnodup
      obtain ⟨hop, hfed, hread, hfree⟩ := hpending mid List.mem_cons_self
      have hstep : Step g sequenced := .sequence hsequence hadd hop hfed hread hfree hrole hnext
      have hreached := hstep.reached_of_sequenced hg hconsistent hsequence
      have hrestPending : ∀ other ∈ rest, Pending sequenced add other := fun other hother =>
        (hpending other (List.mem_cons_of_mem mid hother)).sequence hsequence hrole hnext fun heq => hnotRest (heq ▸ hother)
      obtain ⟨hreached', hthreaded⟩ :=
        ih hconsistent ((hreached.adds add).2 hadd) ((hsequence.edge _).2 (.inl hnext)) hnodup hrestPending hrest
      exact ⟨hreached.trans hreached', hthreaded.cons hg hconsistent hsequence hrole hnext hfree⟩

/-- The loops over the operands of an addition, over its uses and over the tags, and what
    comes after them. -/
theorem lowerAdd_eq_ok {g g' : Graph} {add : NodeId} (h : lowerAdd g add = .ok g') :
    ∃ untagged tagged sequenced, (g.inputsWhere add Role.isValue).foldlM untagOperand g = .ok untagged ∧
      (untagged.outputsWhere add Role.isValue).foldlM tagUse ([], untagged) = .ok tagged ∧
      ((tagged.2.controlSuccessors add = [] ∧ sequenced = tagged.2) ∨
        ∃ next ∈ tagged.2.controlSuccessors add, tagged.1.foldlM (sequenceTag add next) tagged.2 = .ok sequenced) ∧
      (sequenced.addNode .int64Add (carriedProps sequenced add)).2.replace add
        (sequenced.addNode .int64Add (carriedProps sequenced add)).1 = .ok g' := by
  rw [lowerAdd] at h
  obtain ⟨untagged, huntagged, h⟩ := bind_eq_ok.1 h
  obtain ⟨⟨tags, tagged⟩, htagged, h⟩ := bind_eq_ok.1 h
  refine ⟨untagged, (tags, tagged), ?_⟩
  dsimp only at h
  split at h
  · rename_i hnone
    exact ⟨tagged, huntagged, htagged, .inl ⟨hnone, rfl⟩, h⟩
  · rename_i next others hnext
    obtain ⟨sequenced, hsequenced, hreplace⟩ := bind_eq_ok.1 h
    exact ⟨sequenced, huntagged, htagged, .inr ⟨next, by rw [hnext]; exact List.mem_cons_self, hsequenced⟩, hreplace⟩

/-- If control does not leave the addition no tag is sequenced. -/
theorem threaded_of_sequencing {g sequenced : Graph} {add : NodeId} {tagged : List NodeId × Graph}
    (ht : Tagged g add tagged) (hadd : tagged.2.op add = .fixnumAdd)
    (h : (tagged.2.controlSuccessors add = [] ∧ sequenced = tagged.2) ∨
      ∃ next ∈ tagged.2.controlSuccessors add, tagged.1.foldlM (sequenceTag add next) tagged.2 = .ok sequenced) :
    Reached tagged.2 sequenced ∧ Threaded tagged.2 sequenced tagged.1 := by
  have htg := ht.reached.consistent
  rcases h with ⟨-, rfl⟩ | ⟨next, hnext, hsequenced⟩
  · exact ⟨.refl htg, .refl tagged.2 tagged.1⟩
  · obtain ⟨role, hrole, hpos⟩ := htg.mem_controlSuccessors.1 hnext
    exact threaded_of_sequenceTags htg hadd hrole hpos ht.nodup ht.pending hsequenced

/-- An addition is lowered in four phases: its operands are untagged, its uses tagged,
    the tags sequenced if control leaves it, and then it is renamed. -/
theorem lowerAdd_phases {g g' : Graph} {add : NodeId} (hg : g.Consistent) (hadd : g.op add = .fixnumAdd)
    (h : lowerAdd g add = .ok g') :
    ∃ untagged tagged sequenced new, (g.inputsWhere add Role.isValue).foldlM untagOperand g = .ok untagged ∧
      (untagged.outputsWhere add Role.isValue).foldlM tagUse ([], untagged) = .ok tagged ∧
      Reached g untagged ∧ Tagged untagged add tagged ∧ Reached tagged.2 sequenced ∧
      Threaded tagged.2 sequenced tagged.1 ∧
      Renamed sequenced g' add new ∧ g'.op new = .int64Add ∧ g'.props new = carriedProps sequenced add := by
  obtain ⟨untagged, tagged, sequenced, huntagged, htagged, hsequenced, hreplace⟩ := lowerAdd_eq_ok h
  have hu : Reached g untagged := reached_of_untagOperands hg hadd huntagged
  have huadd := (hu.adds add).2 hadd
  have ht : Tagged untagged add tagged := tagged_of_tagUses hu.consistent huadd htagged
  obtain ⟨hs, hthreaded⟩ := threaded_of_sequencing ht ((ht.reached.adds add).2 huadd) hsequenced
  exact ⟨untagged, tagged, sequenced, _, huntagged, htagged, hu, ht, hs, hthreaded,
    hs.consistent.renamed_of_replace hreplace⟩

/-- Lowering an addition is a sequence of steps, and leaves the others to do. -/
theorem lowers_of_lowerAdd {g g' : Graph} {add : NodeId} (hg : g.Consistent) (hadd : g.op add = .fixnumAdd)
    (h : lowerAdd g add = .ok g') :
    Lowers g g' ∧ ∀ id, g'.op id = .fixnumAdd ↔ g.op id = .fixnumAdd ∧ id ≠ add := by
  obtain ⟨untagged, tagged, sequenced, new, -, -, hu, htagged, hs, -, hrename, hop, hprops⟩ :=
    lowerAdd_phases hg hadd h
  have ht := htagged.reached
  have hsadd := (hs.adds add).2 ((ht.adds add).2 ((hu.adds add).2 hadd))
  have hlowers := (hu.lowers.trans ht.lowers).trans hs.lowers
  refine ⟨hlowers.tail ⟨hs.consistent, consistent_lowerAdd h hg, .add hrename hsadd hop hprops⟩, fun id => ?_⟩
  rw [hrename.op_eq_iff (by decide) (by rw [hop]; decide), hs.adds, ht.adds, hu.adds]

/-- Of several additions the others are left to do. -/
theorem op_eq_fixnumAdd_of_lowerAdd {g g' : Graph} {add : NodeId} {rest : List NodeId} (hg : g.Consistent)
    (hnodup : (add :: rest).Nodup) (hadds : ∀ id ∈ add :: rest, g.op id = .fixnumAdd)
    (h : lowerAdd g add = .ok g') : ∀ id ∈ rest, g'.op id = .fixnumAdd := by
  intro id hid
  refine ((lowers_of_lowerAdd hg (hadds add List.mem_cons_self) h).2 id).2
    ⟨hadds id (List.mem_cons_of_mem add hid), ?_⟩
  rintro rfl
  exact (List.nodup_cons.1 hnodup).1 hid

/-- Of several tests, too. -/
theorem op_eq_kindIs_of_lowerTest {g g' : Graph} {test : NodeId} {rest : List NodeId} (hg : g.Consistent)
    (hnodup : (test :: rest).Nodup) (htests : ∀ id ∈ test :: rest, g.op id = .kindIs)
    (h : lowerTest g test = .ok g') : ∀ id ∈ rest, g'.op id = .kindIs := by
  intro id hid
  obtain ⟨hrename, hop, -⟩ := hg.renamed_of_replace h
  refine (hrename.op_eq_iff (by decide) (by rw [hop]; decide)).2 ⟨htests id (List.mem_cons_of_mem test hid), ?_⟩
  rintro rfl
  exact (List.nodup_cons.1 hnodup).1 hid

/-- Tests are renamed one after the other. -/
theorem lowers_of_lowerTests {tests : List NodeId} {g g' : Graph} (hg : g.Consistent) (hnodup : tests.Nodup)
    (htests : ∀ id ∈ tests, g.op id = .kindIs) (h : tests.foldlM lowerTest g = .ok g') :
    Lowers g g' ∧ g'.Consistent ∧ ∀ id, g'.op id = .fixnumAdd ↔ g.op id = .fixnumAdd := by
  induction tests generalizing g with
  | nil =>
      rw [List.foldlM_nil, pure_eq_ok] at h
      subst h
      exact ⟨.refl, hg, fun _ => Iff.rfl⟩
  | cons test rest ih =>
      rw [List.foldlM_cons] at h
      obtain ⟨next, hnext, hrest⟩ := bind_eq_ok.1 h
      have htest := htests test List.mem_cons_self
      have hleft := op_eq_kindIs_of_lowerTest hg hnodup htests hnext
      have hconsistent := consistent_lowerTest hnext hg
      obtain ⟨hrename, hop, hprops⟩ := hg.renamed_of_replace hnext
      obtain ⟨hlowers, hg', hadds⟩ := ih hconsistent (List.nodup_cons.1 hnodup).2 hleft hrest
      refine ⟨.head ⟨hg, hconsistent, .test hrename htest hop hprops⟩ hlowers, hg', fun id => ?_⟩
      rw [hadds, hrename.op_eq_iff (by decide) (by rw [hop]; decide)]
      refine and_iff_left_of_imp ?_
      rintro hid rfl
      rw [htest] at hid
      cases hid

/-- Additions are lowered one after the other, each of them whole. -/
theorem lowers_of_lowerAdds {adds : List NodeId} {g g' : Graph} (hg : g.Consistent) (hnodup : adds.Nodup)
    (hadds : ∀ id ∈ adds, g.op id = .fixnumAdd) (h : adds.foldlM lowerAdd g = .ok g') :
    Lowers g g' ∧ g'.Consistent ∧ ∀ id, g'.op id = .fixnumAdd ↔ g.op id = .fixnumAdd ∧ id ∉ adds := by
  induction adds generalizing g with
  | nil =>
      rw [List.foldlM_nil, pure_eq_ok] at h
      subst h
      exact ⟨.refl, hg, fun id => by simp⟩
  | cons add rest ih =>
      rw [List.foldlM_cons] at h
      obtain ⟨next, hnext, hrest⟩ := bind_eq_ok.1 h
      have hleft := op_eq_fixnumAdd_of_lowerAdd hg hnodup hadds hnext
      obtain ⟨hlowers, hothers⟩ := lowers_of_lowerAdd hg (hadds add List.mem_cons_self) hnext
      obtain ⟨hlowers', hg', hdone⟩ := ih (consistent_lowerAdd hnext hg) (List.nodup_cons.1 hnodup).2 hleft hrest
      refine ⟨hlowers.trans hlowers', hg', fun id => ?_⟩
      rw [hdone, hothers, List.mem_cons, not_or, and_assoc]

/-- A run checks the operands of every addition, lowers the tests and then the
    additions. -/
theorem run_phases {g : Graph} {r : Change} (h : run g = .ok r) :
    (∀ add ∈ g.find .fixnumAdd, (g.inputsWhere add Role.isValue).length = 2) ∧
      ∃ tested, ((g.find .kindIs).filter (isFixnumTest g)).foldlM lowerTest g = .ok tested ∧
        (g.find .fixnumAdd).foldlM lowerAdd tested = .ok r.graph := by
  obtain ⟨hchecks, tested, htested, hadded, -⟩ := run_eq_ok h
  refine ⟨fun add hadd => ?_, tested, htested, hadded⟩
  have hcheck := hchecks add hadd
  rw [check] at hcheck
  split at hcheck
  · assumption
  · cases hcheck

/-- Once the tests are lowered all additions are still there. -/
theorem lowers_of_run_tests {g tested : Graph} (hg : g.Consistent)
    (h : ((g.find .kindIs).filter (isFixnumTest g)).foldlM lowerTest g = .ok tested) :
    Lowers g tested ∧ tested.Consistent ∧ ∀ id, tested.op id = .fixnumAdd ↔ id ∈ g.find .fixnumAdd := by
  have htests : ∀ id ∈ (g.find .kindIs).filter (isFixnumTest g), g.op id = .kindIs := fun id hid =>
    (mem_find_iff (by decide)).1 (List.mem_of_mem_filter hid)
  obtain ⟨hlowers, hconsistent, hadds⟩ := lowers_of_lowerTests hg ((g.nodup_ids.filter _).filter _) htests h
  exact ⟨hlowers, hconsistent, fun id => (hadds id).trans (mem_find_iff (by decide)).symm⟩

/-- A run is a sequence of steps that leaves no addition. -/
theorem lowers_run {g : Graph} {r : Change} (hg : g.Consistent) (h : run g = .ok r) :
    Lowers g r.graph ∧ r.graph.Consistent ∧ ∀ id, r.graph.op id ≠ .fixnumAdd := by
  obtain ⟨-, tested, htested, hadded⟩ := run_phases h
  obtain ⟨hlowers, hconsistent, hadds⟩ := lowers_of_run_tests hg htested
  obtain ⟨hlowers', hg', hdone⟩ :=
    lowers_of_lowerAdds hconsistent (g.nodup_ids.filter _) (fun id hid => (hadds id).2 hid) hadded
  refine ⟨hlowers.trans hlowers', hg', fun id hid => ?_⟩
  obtain ⟨hid, hnot⟩ := (hdone id).1 hid
  exact hnot ((hadds id).1 hid)

end SeaOfNodes.Pass.Tagging
