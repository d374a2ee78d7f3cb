/-
  SeaOfNodes.Proofs.Listing.Flow

  What a listing asks of control, told by the graph alone.  Every fixed node is in a block,
  every block goes on to a merge or ends in a transfer, and every operand of a phi comes by
  a block that flows into the merge.  A rewrite keeps all this if each step of control can
  be followed there and back, and what flows into a merge is still found first.
-/
import SeaOfNodes.Proofs.Listing.Success
import SeaOfNodes.Proofs.Schedule.RewrittenBlocks

namespace SeaOfNodes.Listing

open SeaOfNodes.Graph Schedule Relation

/-- A block that is only a transfer, with no floating node at home there. -/
structure Alone (g : Graph) (aside : List NodeId) (home : NodeId → NodeId) (first : NodeId) : Prop where
  leaves : g.op first = .branch ∨ g.op first = .finish
  sole : ∀ id, InBlock g first id → id = first
  bare : ∀ id, Floats g aside id → home id ≠ first

/-- Control flows so that it can be listed. -/
structure Flowing (g : Graph) (aside : List NodeId) (home : NodeId → NodeId) : Prop where
  covered : ∀ id, g.isFixed id = true → ∃ first ∈ blockFirsts g, InBlock g first id
  returns : ∃ id, g.op id = .finish
  closed : ∀ first ∈ blockFirsts g,
    (∃ id, id ≠ first ∧ InBlock g first id ∧ endsBlock g first id = true) ∨ Alone g aside home first
  fed : ∀ id, g.op id = .phi → Fed g id

/-- No phi needs an operand at a branch: no outcome of one goes straight to a merge. -/
def NoneCritical (g : Graph) : Prop :=
  ∀ e, 0 < g.multiplicity e → e.role.isValue = true → g.op e.target = .phi → g.op (g.useSite e) ≠ .branch

/-- Control leaves a block that is only a transfer by a branch, if at all. -/
theorem Alone.op_eq_branch {g : Graph} {aside : List NodeId} {home : NodeId → NodeId} {first next : NodeId}
    (h : Alone g aside home first) (hg : g.Consistent) (hroles : g.Unscheduled)
    (hnext : next ∈ g.controlSuccessors first) (hne : next ≠ first) : g.op first = .branch := by
  refine h.leaves.resolve_right fun hfinish => hne (h.sole next ?_)
  rw [inBlock_iff_steps hg hroles]
  refine .single ⟨isOtherMerge_self g first, by rw [hfinish]; decide, hnext, ?_⟩
  rintro ⟨hstart, -, -⟩
  rw [hfinish] at hstart
  cases hstart

/-- Where a phi needs an operand control goes on, so no block is only a transfer there. -/
theorem NoneCritical.not_alone {g : Graph} (h : NoneCritical g) (hg : g.Consistent) (hroles : g.Unscheduled)
    (hres : g.PhisResolved) {e : Edge} (he : 0 < g.multiplicity e) (hvalue : e.role.isValue = true)
    (hop : g.op e.target = .phi) {aside : List NodeId} {home : NodeId → NodeId} : ¬ Alone g aside home (g.useSite e) := by
  intro halone
  obtain ⟨n, merge, hneeded⟩ := (useSite_cases g e).resolve_left (hres e he hvalue hop)
  refine h e he hvalue hop (halone.op_eq_branch hg hroles (hneeded.mem_controlSuccessors hg).1 ?_)
  rintro rfl
  have hmerge : g.op (g.useSite e) = .merge := by simpa using List.find?_some hneeded.merge_eq
  rcases halone.leaves with hleaves | hleaves
  · rw [hmerge] at hleaves
    cases hleaves
  · rw [hmerge] at hleaves
    cases hleaves

/-! ## Blocks that are followed there and back -/

/-- Each step of control in a graph is one between nodes of another that stand for its ends. -/
structure Unfolds (g g' : Graph) (f : NodeId → NodeId) : Prop where
  steps : ∀ a b, b ∈ g.controlSuccessors a → f b ∈ g'.controlSuccessors (f a)
  merge : ∀ id, g.has id = true → g'.op (f id) = .merge → g.op id = .merge
  branch : ∀ id, g.has id = true → g'.op (f id) = .branch → g.op id = .branch
  shortcut : ∀ a b, b ∈ g.controlSuccessors a → IsShortcut g' ⟨f a, f b, .control⟩ → IsShortcut g ⟨a, b, .control⟩

theorem Unfolds.inBlock {g g' : Graph} {f : NodeId → NodeId} (h : Unfolds g g' f) (hg : g.Consistent)
    (hg' : g'.Consistent) (hroles : g.Unscheduled) (hroles' : g'.Unscheduled) {first id : NodeId}
    (hid : InBlock g first id) : InBlock g' (f first) (f id) := by
  rw [inBlock_iff_steps hg hroles] at hid
  rw [inBlock_iff_steps hg' hroles']
  induction hid with
  | refl => exact .refl
  | @tail a b _ hstep ih =>
      have hlive := has_of_isFixed (isFixed_of_hasControlSuccessor hstep.next)
      refine ih.tail ⟨?_, fun hop => hstep.onward (h.branch a hlive hop), h.steps a b hstep.next,
        fun hs => hstep.kept (h.shortcut a b hstep.next hs)⟩
      by_contra hother
      simp only [isOtherMerge, Bool.not_eq_false, Bool.and_eq_true, decide_eq_true_eq] at hother
      have hown := hstep.own
      simp only [isOtherMerge, h.merge a hlive hother.2, decide_true, Bool.and_true, decide_eq_false_iff_not,
        not_not] at hown
      exact hother.1 (congrArg f hown)

/-- Where nothing is anchored control brings all nodes into a block but the first. -/
theorem isFixed_of_inBlock {g : Graph} (hg : g.Consistent) (hroles : g.Unscheduled) {first id : NodeId}
    (hid : InBlock g first id) (hne : id ≠ first) : g.isFixed id = true := by
  rw [inBlock_iff_steps hg hroles] at hid
  rcases ReflTransGen.cases_tail hid with heq | ⟨a, -, hstep⟩
  · exact absurd heq hne
  · exact hg.isFixed_of_controlSuccessors hstep.next

/-- A rewrite of control that can be followed there and back. -/
structure Reflows (g g' : Graph) (f k : NodeId → NodeId) : Prop where
  consistent : g.Consistent
  consistent' : g'.Consistent
  roles : g.Unscheduled
  roles' : g'.Unscheduled
  folds : Folds g g' k
  unfolds : Unfolds g g' f
  begins : ∀ first ∈ blockFirsts g, f first ∈ blockFirsts g'
  back : ∀ id, g.isFixed id = true → k (f id) = id
  again : ∀ first ∈ blockFirsts g', f (k first) = first
  reach : ∀ id, g'.isFixed id = true → g.isFixed (k id) = true ∧
    (f (k id) = id ∨ ∀ first, BlockStep g' first (f (k id)) id)
  fiber : ∀ a b, g'.has a = true → g'.has b = true → (g.op (k a)).isFixed = true → k b = k a → b = a
  entries : ∀ id, g.has id = true → ∃ more, g'.inputsWhere (f id) Role.isControl =
    (g.inputsWhere id Role.isControl).map (fun e => ⟨f e.source, f e.target, e.role⟩) ++ more
  phiMerge : ∀ id merge, g'.op id = .phi → g.phiMerge? (k id) = some merge → g'.phiMerge? id = some (f merge)
  operands : ∀ e, 0 < g'.multiplicity e → e.role.isValue = true → g'.op e.target = .phi →
    ∃ x, 0 < g.multiplicity x ∧ x.role = e.role ∧ x.target = k e.target ∧ g.useSite x = k (g'.useSite e)

namespace Reflows

variable {g g' : Graph} {f k : NodeId → NodeId} (h : Reflows g g' f k)
include h

theorem inBlock {first id : NodeId} (hid : InBlock g first id) : InBlock g' (f first) (f id) :=
  h.unfolds.inBlock h.consistent h.consistent' h.roles h.roles' hid

theorem inBlock_back {first id : NodeId} (hid : InBlock g' first id) : InBlock g (k first) (k id) :=
  h.folds.inBlock h.consistent h.consistent' h.roles h.roles' hid

theorem op_iff {id : NodeId} (hid : g.isFixed id = true) {op : Op} (hop : op.isFixed = true) :
    g'.op (f id) = op ↔ g.op id = op := by
  rw [h.folds.op_iff (f id) op hop, h.back id hid]

theorem isOtherMerge_eq {first id : NodeId} (hfirst : g.isFixed first = true) (hid : g.isFixed id = true) :
    isOtherMerge g' (f first) (f id) = isOtherMerge g first id := by
  have hne : f id ≠ f first ↔ id ≠ first := by
    refine not_congr ⟨fun heq => ?_, congrArg f⟩
    rw [← h.back id hid, heq, h.back first hfirst]
  have hop : g'.op (f id) = .merge ↔ g.op id = .merge := h.op_iff hid rfl
  simp only [isOtherMerge, hop, hne]

theorem holds_iff {first id : NodeId} (hfirst : g.isFixed first = true) (hid : g.isFixed id = true) :
    Holds g' (f first) (f id) ↔ Holds g first id := by
  rw [Holds, Holds, h.isOtherMerge_eq hfirst hid]
  refine and_congr_left fun _ => ⟨fun hin => ?_, h.inBlock⟩
  have hback := h.inBlock_back hin
  rwa [h.back first hfirst, h.back id hid] at hback

theorem joins {first merge : NodeId} {e : Edge} (hmerge : g.isFixed merge = true) (hj : Joins g first merge e) :
    Joins g' (f first) (f merge) ⟨f e.source, f e.target, e.role⟩ := by
  obtain ⟨hbegins, hinto, hother, hholds, before, after, hsplit, hearliest⟩ := hj
  have hfirst := isFixed_of_beginsBlock (mem_blockFirsts.1 hbegins).2
  have hfixed : ∀ x ∈ g.inputsWhere merge Role.isControl, g.isFixed x.source = true := fun x hx =>
    isFixed_of_hasControlSuccessor (h.consistent.mem_controlPredecessors.1 (List.mem_map_of_mem hx))
  obtain ⟨more, hentries⟩ := h.entries merge (has_of_isFixed hmerge)
  refine ⟨h.begins first hbegins, h.inBlock hinto, ?_, (h.holds_iff hfirst (hfixed e (by simp [hsplit]))).2 hholds,
    before.map fun x => ⟨f x.source, f x.target, x.role⟩, (after.map fun x => ⟨f x.source, f x.target, x.role⟩) ++ more,
    ?_, fun y hy => ?_⟩
  · rw [h.isOtherMerge_eq hfirst hmerge, hother]
  · rw [hentries, hsplit]
    simp
  · obtain ⟨x, hx, rfl⟩ := List.mem_map.1 hy
    rw [h.holds_iff hfirst (hfixed x (by simp [hsplit, hx]))]
    exact hearliest x hx

theorem noneCritical (hcritical : NoneCritical g) : NoneCritical g' := by
  intro e he hrole hop
  obtain ⟨x, hx, hxrole, htarget, hsite⟩ := h.operands e he hrole hop
  have hxop : g.op x.target = .phi := by
    rw [htarget]
    exact (h.folds.op_iff e.target _ rfl).1 hop
  rw [Ne, h.folds.op_iff _ _ rfl, ← hsite]
  exact hcritical x hx (by rw [hxrole]; exact hrole) hxop

variable {aside aside' : List NodeId} {home home' : NodeId → NodeId} (hf : Flowing g aside home)
include hf

/-- A block that was only a transfer is still, if nothing new is at home there. -/
theorem closed (hbare : ∀ x, Floats g' aside' x → (∃ y, Floats g aside y ∧ home y = k (home' x)) ∨
    ∀ first ∈ blockFirsts g, Alone g aside home first → k (home' x) ≠ first) {first : NodeId}
    (hfirst : first ∈ blockFirsts g') :
    (∃ id, id ≠ first ∧ InBlock g' first id ∧ endsBlock g' first id = true) ∨ Alone g' aside' home' first := by
  have hagain := h.again first hfirst
  have hfixedFirst := isFixed_of_beginsBlock (mem_blockFirsts.1 (h.folds.begins first hfirst)).2
  rcases hf.closed (k first) (h.folds.begins first hfirst) with ⟨id, hne, hin, hends⟩ | halone
  · have hidFixed := isFixed_of_endsBlock hends
    have hin' := h.inBlock hin
    rw [hagain] at hin'
    refine .inl ⟨f id, fun heq => hne ?_, hin', ?_⟩
    · rw [← h.back id hidFixed, heq]
    · have hother := h.isOtherMerge_eq hfixedFirst hidFixed
      rw [hagain] at hother
      have hbranch : g'.op (f id) = .branch ↔ g.op id = .branch := h.op_iff hidFixed rfl
      have hfinish : g'.op (f id) = .finish ↔ g.op id = .finish := h.op_iff hidFixed rfl
      rw [endsBlock, hother]
      simpa only [endsBlock, hbranch, hfinish] using hends
  · obtain ⟨hleaves, hsole, hnone⟩ := halone
    have hfixed : (g.op (k first)).isFixed = true := by
      rcases hleaves with hop | hop
      · rw [hop]
        rfl
      · rw [hop]
        rfl
    refine .inr ⟨?_, fun id hid => ?_, fun x hx heq => ?_⟩
    · rw [h.folds.op_iff first _ rfl, h.folds.op_iff first _ rfl]
      exact hleaves
    · by_contra hne
      have hidLive := has_of_isFixed (isFixed_of_inBlock h.consistent' h.roles' hid hne)
      exact hne (h.fiber first id (mem_blockFirsts.1 hfirst).1 hidLive hfixed (hsole _ (h.inBlock_back hid)))
    · rcases hbare x hx with ⟨y, hy, hhome⟩ | hother
      · rw [heq] at hhome
        exact hnone y hy hhome
      · refine hother (k first) (h.folds.begins first hfirst) ⟨hleaves, hsole, hnone⟩ ?_
        rw [heq]

/-- What feeds a phi still does. -/
theorem fed {id : NodeId} (hop : g'.op id = .phi) : Fed g' id := by
  have hopBack := (h.folds.op_iff id _ rfl).1 hop
  obtain ⟨merge, hmerge, hoperands⟩ := hf.fed (k id) hopBack
  have hfixed : g.isFixed merge = true := by
    have hmergeOp : g.op merge = .merge := by simpa using List.find?_some hmerge
    exact isFixed_of_op (by rw [hmergeOp]; rfl)
  refine ⟨f merge, h.phiMerge id merge hop hmerge, fun e he => ?_⟩
  obtain ⟨he, hname⟩ := List.mem_filter.1 he
  obtain rfl := h.consistent'.target_eq id e he
  obtain ⟨x, hx, hrole, htarget, -⟩ := h.operands e (multiplicity_pos.2 (h.consistent'.mem_outputs he))
    (by rw [Role.isValue, of_decide_eq_true hname]; rfl) hop
  have hmem : x ∈ g.inputsNamed (k e.target) .value := by
    rw [← htarget, inputsNamed, inputsWhere, List.mem_filter, hrole]
    exact ⟨h.consistent.mem_inputs (multiplicity_pos.1 hx), hname⟩
  obtain ⟨n, first, y, hindex, hjoins, hinflow⟩ := hoperands x hmem
  exact ⟨n, f first, _, hrole ▸ hindex, h.joins hfixed hjoins, hinflow⟩

/-- Control flows on where it can be followed there and back. -/
theorem flowing (hbare : ∀ x, Floats g' aside' x → (∃ y, Floats g aside y ∧ home y = k (home' x)) ∨
    ∀ first ∈ blockFirsts g, Alone g aside home first → k (home' x) ≠ first) : Flowing g' aside' home' := by
  refine ⟨fun id hid => ?_, ?_, fun first hfirst => h.closed hf hbare hfirst, fun id hid => h.fed hf hid⟩
  · obtain ⟨hfixed, hreach⟩ := h.reach id hid
    obtain ⟨first, hfirst, hin⟩ := hf.covered (k id) hfixed
    refine ⟨f first, h.begins first hfirst, ?_⟩
    have hin' := h.inBlock hin
    rcases hreach with heq | hstep
    · rwa [heq] at hin'
    · rw [inBlock_iff_steps h.consistent' h.roles'] at hin' ⊢
      exact hin'.tail (hstep _)
  · obtain ⟨id, hid⟩ := hf.returns
    exact ⟨f id, (h.op_iff (isFixed_of_op (by rw [hid]; rfl)) rfl).2 hid⟩

end Reflows

/-! ## Rewrites of lowering -/

theorem reflows_of_relays {g g' : Graph} {e : Edge} {mid : NodeId} (h : Relays g g' e mid) (hroles : g.Unscheduled)
    (hroles' : g'.Unscheduled) : Reflows g g' id id := by
  have hsuccessors : ∀ {a b : NodeId}, b ∈ g'.controlSuccessors a ↔ b ∈ g.controlSuccessors a :=
    h.controlSuccessors_iff h.value h.consistent h.consistent'
  have hphi : ∀ {x : NodeId}, g'.op x = .phi → x ≠ mid := by
    rintro x hop rfl
    exact op_ne_of_isFixed h.floating rfl hop
  refine ⟨h.consistent, h.consistent', hroles, hroles', h.folds, ⟨fun a b hb => hsuccessors.2 hb, fun x hx hop => ?_,
    fun x hx hop => ?_, fun a b hb hshortcut => ?_⟩, fun first hfirst => ?_, fun _ _ => rfl, fun _ _ => rfl,
    fun x hx => ⟨(h.of_isFixed hx).2, .inl rfl⟩, fun _ _ _ _ _ heq => heq, fun x hx => ⟨[], ?_⟩,
    fun x merge hop hmerge => ?_, fun x hx hrole hop => ?_⟩
  · rwa [id, h.op x (h.ne_mid hx)] at hop
  · rwa [id, h.op x (h.ne_mid hx)] at hop
  · have ha := h.ne_mid (has_of_isFixed (isFixed_of_hasControlSuccessor hb))
    have hbmid := h.ne_mid (has_of_isFixed (h.consistent.isFixed_of_controlSuccessors hb))
    simpa only [IsShortcut, id, h.op a ha, h.op b hbmid, h.entries h.value hbmid] using hshortcut
  · obtain ⟨hlive, hbegins⟩ := mem_blockFirsts.1 hfirst
    exact mem_blockFirsts.2 ⟨(h.has first).2 (.inl hlive),
      (h.beginsBlock_iff h.value h.consistent h.consistent' (h.ne_mid hlive)).2 hbegins⟩
  · simp [h.entries h.value (h.ne_mid hx)]
  · rw [h.phiMerge?_eq h.value h.consistent (hphi hop)]
    exact hmerge
  · have htarget := hphi hop
    rw [h.op _ htarget] at hop
    rcases h.old x hx with rfl | rfl | hold
    · exact absurd rfl htarget
    · exact ⟨e, h.edge, rfl, rfl, (h.useSite h.value h.consistent (x := spliceTail e mid) htarget).symm⟩
    · exact ⟨x, hold, rfl, rfl, (h.useSite h.value h.consistent htarget).symm⟩

/-- Two inputs of a node are more than one. -/
theorem one_lt_length_of_source_ne {g : Graph} {id : NodeId} {kind : Role → Bool} {x y : Edge}
    (hx : x ∈ g.inputsWhere id kind) (hy : y ∈ g.inputsWhere id kind) (hne : x.source ≠ y.source) :
    1 < (g.inputsWhere id kind).length := by
  match hlist : g.inputsWhere id kind with
  | [] =>
      rw [hlist] at hx
      cases hx
  | [z] =>
      rw [hlist, List.mem_singleton] at hx hy
      rw [hx, hy] at hne
      exact absurd rfl hne
  | _ :: _ :: _ => simp

theorem reflows_of_enters {g g' : Graph} {before mid after : NodeId} (h : Enters g g' before mid after)
    (hbefore : (g.op before).isFixed = false) (hres : g.PhisResolved) (hroles : g.Unscheduled)
    (hroles' : g'.Unscheduled) : Reflows g g' id fun x => if x = mid then before else x := by
  have hphi : ∀ {x : NodeId}, g.op x = .phi → x ≠ mid := by
    rintro x hop rfl
    exact op_ne_of_isFixed h.floating rfl hop
  have hbegins : ∀ {first : NodeId}, g'.beginsBlock first = true ↔ g.beginsBlock first = true :=
    h.beginsBlock_iff h.consistent h.consistent'
  have hbeforeFixed : g.isFixed before = true := isFixed_of_hasControlSuccessor h.next
  refine ⟨h.consistent, h.consistent', hroles, hroles', h.folds hbefore, ⟨fun a b hb => h.successors_iff.2 (.inl hb),
    fun x _ hop => ?_, fun x _ hop => ?_, fun a b hb hshortcut => ?_⟩, fun first hfirst => ?_,
    fun x hx => if_neg (h.ne_mid_of_isFixed hx), fun first hfirst => ?_, fun x hx => ?_, fun a b _ _ hfixed heq => ?_,
    fun x _ => ⟨[(⟨before, mid, .control⟩ : Edge), ⟨mid, after, .control⟩].filter (·.target = x), ?_⟩,
    fun x merge hop hmerge => ?_, fun x hx hrole hop => ?_⟩
  · rwa [id, h.nodes.op] at hop
  · rwa [id, h.nodes.op] at hop
  · obtain ⟨hstart, hfinish, hmany⟩ := hshortcut
    rw [h.nodes.op] at hstart hfinish
    refine ⟨hstart, hfinish, ?_⟩
    by_cases hafter : b = after
    · obtain ⟨x, hx, hxsource⟩ := List.mem_map.1 (h.consistent.mem_controlPredecessors.2 hb)
      obtain ⟨y, hy, hysource⟩ := List.mem_map.1 (h.consistent.mem_controlPredecessors.2 h.next)
      rw [← hafter] at hy
      refine one_lt_length_of_source_ne hx hy ?_
      rw [hxsource, hysource]
      rintro rfl
      exact op_ne_of_isFixed hbefore rfl hstart
    · rw [h.entries] at hmany
      simpa [(h.ne_mid hb).2.symm, Ne.symm hafter] using hmany
  · obtain ⟨hlive, hfirst⟩ := mem_blockFirsts.1 hfirst
    exact mem_blockFirsts.2 ⟨(h.nodes.has first).trans hlive, hbegins.2 hfirst⟩
  · exact if_neg (h.ne_mid_of_isFixed (isFixed_of_beginsBlock (hbegins.1 (mem_blockFirsts.1 hfirst).2)))
  · by_cases hmid : x = mid
    · rw [if_pos hmid, hmid]
      refine ⟨hbeforeFixed, .inr fun first => ⟨?_, ?_, h.successors_iff.2 (.inr (.inl ⟨rfl, rfl⟩)), ?_⟩⟩
      · have hop := op_ne_of_isFixed hbefore (show Op.isFixed .merge = true from rfl)
        rw [id, isOtherMerge, h.nodes.op]
        simp [hop]
      · rw [id, h.nodes.op]
        exact op_ne_of_isFixed hbefore rfl
      · rintro ⟨hstart, -, -⟩
        rw [h.nodes.op] at hstart
        exact op_ne_of_isFixed hbefore rfl hstart
    · rw [if_neg hmid]
      exact ⟨(h.isFixed_eq hmid).symm.trans hx, .inl rfl⟩
  · have hne : ∀ {x : NodeId}, (g.op (if x = mid then before else x)).isFixed = true → x ≠ mid := by
      rintro x hx rfl
      rw [if_pos rfl, hbefore] at hx
      cases hx
    have ha := hne hfixed
    rw [← heq] at hfixed
    rwa [if_neg (hne hfixed), if_neg ha] at heq
  · have hsame := List.map_id (g.inputsWhere x Role.isControl)
    rw [id, h.entries]
    exact congrArg (· ++ _) hsame.symm
  · rw [h.nodes.op] at hop
    rw [if_neg (hphi hop)] at hmerge
    exact h.phiMerge?_eq hmerge
  · rw [h.nodes.op] at hop
    have hold := (h.value_iff hrole).1 hx
    have hsite := h.consistent.isFixed_useSite hop
    rw [if_neg (hphi hop), h.useSite hres hold hrole, if_neg (h.ne_mid_of_isFixed hsite)]
    exact ⟨x, hold, rfl, rfl, rfl⟩

theorem reflows_of_recasts {g g' : Graph} {old new : NodeId} (h : Recasts g g' old new) (hres : g.PhisResolved)
    (hroles : g.Unscheduled) (hroles' : g'.Unscheduled) : Reflows g g' (rename old new) (rename new old) := by
  have hlast : ∀ {x : NodeId}, g'.has x = true → rename old new (rename new old x) = x := fun hx =>
    rename_rename_of_ne (h.has_back hx).1
  refine ⟨h.consistent, h.consistent', hroles, hroles', h.folds,
    ⟨fun a b hb => ?_, fun x hx hop => (h.op_iff hx rfl).1 hop, fun x hx hop => (h.op_iff hx rfl).1 hop, fun a b hb hshortcut => ?_⟩, fun first hfirst => ?_,
    fun x hx => h.back (has_of_isFixed hx), fun first hfirst => hlast (mem_blockFirsts.1 hfirst).1, fun x hx => ?_,
    fun a b ha hb _ heq => ?_, fun x hx => ⟨[], ?_⟩, fun x merge hop hmerge => ?_, fun x hx hrole hop => ?_⟩
  · obtain ⟨role, -, hpos⟩ := h.consistent.mem_controlSuccessors.1 hb
    obtain ⟨ha, hblive⟩ := h.consistent.has_of_multiplicity hpos
    rw [h.controlSuccessors_iff h.consistent h.consistent' (h.rename_ne_old a) (h.rename_ne_old b), h.back ha,
      h.back hblive]
    exact hb
  · obtain ⟨role, -, hpos⟩ := h.consistent.mem_controlSuccessors.1 hb
    obtain ⟨ha, hblive⟩ := h.consistent.has_of_multiplicity hpos
    obtain ⟨hstart, hfinish, hmany⟩ := hshortcut
    rw [h.entries (h.rename_ne_old b), h.back hblive, List.length_map] at hmany
    exact ⟨(h.op_iff ha rfl).1 hstart, (h.op_iff hblive rfl).1 hfinish, hmany⟩
  · obtain ⟨hlive, hbegins⟩ := mem_blockFirsts.1 hfirst
    refine mem_blockFirsts.2 ⟨h.has_rename hlive, (h.beginsBlock_back_iff (h.rename_ne_old first)).2 ?_⟩
    rw [h.back hlive]
    exact hbegins
  · obtain ⟨a, ha, rfl⟩ := h.exists_eq_rename (has_of_isFixed hx)
    rw [h.back ha]
    exact ⟨(h.isFixed_eq ha).symm.trans hx, .inl rfl⟩
  · rw [← hlast hb, heq, hlast ha]
  · rw [h.entries (h.rename_ne_old x), h.back hx, List.append_nil]
    rfl
  · obtain ⟨a, ha, rfl⟩ := h.exists_eq_rename (has_of_op_ne_invalid (by rw [hop]; decide))
    rw [h.back ha] at hmerge
    exact h.phiMerge?_eq h.oldFloating h.newFloating h.consistent ha hmerge
  · obtain ⟨y, hy, rfl, -, -⟩ := h.exists_edge hx
    obtain ⟨-, htarget⟩ := h.consistent.has_of_multiplicity hy
    have hsite : g.has (g.useSite y) = true :=
      h.consistent.has_of_mem_useSites (h.consistent.mem_useSites.2 ⟨y, hy, hrole, rfl, rfl⟩)
    rw [h.useSite h.oldFloating h.newFloating h.consistent hres hy hrole]
    exact ⟨y, hy, rfl, (h.back htarget).symm, (h.back hsite).symm⟩

end SeaOfNodes.Listing
