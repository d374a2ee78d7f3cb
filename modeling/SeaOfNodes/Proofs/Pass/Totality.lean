/-
  SeaOfNodes.Proofs.Pass.Totality

  Passes ask nothing impossible of a consistent graph.  Surgery is refused only where
  something is missing; a pass takes the nodes and the edges that it names from the graph
  as it finds it, and no step takes away what a later one needs.  So nothing can stop a
  pass but an addition that has not two operands.
-/
import SeaOfNodes.Pass.Runner
import SeaOfNodes.Proofs.Graph.Calls
import SeaOfNodes.Proofs.Pass.Dangling
import SeaOfNodes.Proofs.Pass.Lowering

namespace SeaOfNodes.Graph

/-! ## Surgery that is not refused -/

/-- A call that names only what is there is answered. -/
theorem Call.exists_apply {g : Graph} {call : Call} (h : ¬ call.Refused g) : ∃ g', call.apply g = .ok g' := by
  cases happly : call.apply g with
  | ok g' => exact ⟨g', rfl⟩
  | error cause => exact absurd ((fails_apply_iff g call).1 ⟨cause, happly⟩) h

theorem exists_remove {g : Graph} {id : NodeId} (hid : g.has id = true) : ∃ g', g.remove id = .ok g' := by
  have hcall : ¬ (Call.remove id).Refused g := by
    simp [Call.Refused, Call.nodes, Call.edges, Call.pairs, hid]
  exact Call.exists_apply hcall

theorem exists_replaceUses {g : Graph} {old new : NodeId} (hold : g.has old = true) (hnew : g.has new = true)
    (hne : old ≠ new) : ∃ g', g.replaceUses old new = .ok g' := by
  have hcall : ¬ (Call.replaceUses old new).Refused g := by
    simp [Call.Refused, Call.nodes, Call.edges, Call.pairs, hold, hnew, hne]
  exact Call.exists_apply hcall

theorem Consistent.exists_interdict {g : Graph} (hg : g.Consistent) {e : Edge} {mid : NodeId}
    (he : 0 < g.multiplicity e) (hmid : g.has mid = true) : ∃ g', g.interdict e mid = .ok g' := by
  have hout : e ∈ g.outputs e.source := multiplicity_pos.1 he
  have hin : e ∈ g.inputs e.target := hg.mem_inputs hout
  obtain ⟨hsource, htarget⟩ := hg.has_of_multiplicity he
  have hcall : ¬ (Call.interdict e mid).Refused g := by
    simp [Call.Refused, Call.nodes, Call.edges, Call.pairs, hmid, hsource, htarget, hout, hin]
  exact Call.exists_apply hcall

/-- A new node can take the place of any live one. -/
theorem exists_replace_addNode {g : Graph} {old : NodeId} (hold : g.has old = true) (op : Op) (props : Props) :
    ∃ g', (g.addNode op props).2.replace old (g.addNode op props).1 = .ok g' := by
  have hfresh := has_addNode_fresh g op props
  apply exists_replace
  · rw [has_addNode, hold, Bool.or_true]
  · rw [has_addNode, decide_eq_true rfl, Bool.true_or]
  · intro heq
    rw [← heq, hold] at hfresh
    cases hfresh

end SeaOfNodes.Graph

namespace SeaOfNodes.Pass

open SeaOfNodes.Graph

/-! ## Dead code -/

namespace DeadCode

/-- Live nodes can be removed one after the other. -/
theorem exists_foldlM_remove {ids : List NodeId} {g : Graph} (hg : g.Consistent) (hnodup : ids.Nodup)
    (hlive : ∀ id ∈ ids, g.has id = true) : ∃ g', ids.foldlM Graph.remove g = .ok g' := by
  induction ids generalizing g with
  | nil => exact ⟨g, rfl⟩
  | cons id rest ih =>
      obtain ⟨hid, hnodup⟩ := List.nodup_cons.1 hnodup
      obtain ⟨next, hnext⟩ := exists_remove (hlive id List.mem_cons_self)
      have hlacks := (hg.remove_law hnext).1
      have hrest : ∀ other ∈ rest, next.has other = true := by
        intro other hother
        apply (hlacks.has other).2
        refine ⟨hlive other (List.mem_cons_of_mem id hother), ?_⟩
        rintro rfl
        exact hid hother
      rw [List.foldlM_cons, hnext]
      exact ih (hg.remove hnext) hnodup hrest

theorem exists_sweep (rounds : Nat) {g : Graph} (hg : g.Consistent) (removed : Nat) :
    ∃ r, sweep rounds g removed = .ok r := by
  induction rounds generalizing g removed with
  | zero => exact ⟨_, rfl⟩
  | succ rounds ih =>
      rw [sweep]
      split
      · exact ⟨_, rfl⟩
      · rename_i hdead
        have hnodup : g.deadNodes.Nodup := g.nodup_ids.filter _
        have hlive : ∀ id ∈ g.deadNodes, g.has id = true := fun id hid => mem_ids.1 (List.mem_of_mem_filter hid)
        obtain ⟨swept, hswept⟩ := exists_foldlM_remove hg hnodup hlive
        rw [hswept]
        exact ih (foldlM_keeps Consistent (fun _ _ _ hb hremove => hb.remove hremove) hswept hg) _

end DeadCode

/-! ## Phis without a choice -/

namespace NoChoice

/-- A phi that is bypassed is live, and so is the node that its readers are handed on to. -/
theorem live_of_soleChoice? {g : Graph} (hg : g.Consistent) {phi source : NodeId}
    (h : g.soleChoice? phi = some source) : g.has phi = true ∧ g.has source = true := by
  obtain ⟨-, -, hinputs⟩ := soleChoice?_eq_some h
  obtain ⟨role, -, hpos⟩ := hg.mem_consumers.1 (hg.mem_valueInputs.1 ((hinputs source).2 rfl))
  obtain ⟨hsource, hphi⟩ := hg.has_of_multiplicity hpos
  exact ⟨hphi, hsource⟩

theorem exists_visit {r : Change} (hr : r.graph.Consistent) (phi : NodeId) : ∃ r', visit r phi = .ok r' := by
  rw [visit]
  cases hchoice : r.graph.soleChoice? phi with
  | none => exact ⟨r, rfl⟩
  | some source =>
      obtain ⟨-, hne, -⟩ := soleChoice?_eq_some hchoice
      obtain ⟨hphi, hsource⟩ := live_of_soleChoice? hr hchoice
      obtain ⟨forwarded, hforwarded⟩ := exists_replaceUses hphi hsource hne.symm
      -- Handing on the readers leaves the phi itself to be removed.
      obtain ⟨-, -, -, hnodes, -⟩ := hr.replaceUses_law hforwarded
      have hstill : forwarded.has phi = true := by
        rw [hnodes.has]
        exact hphi
      obtain ⟨removed, hremoved⟩ := exists_remove hstill
      refine ⟨⟨removed, r.count + 1⟩, ?_⟩
      dsimp only
      rw [hforwarded, bind_eq_ok]
      exact ⟨forwarded, rfl, by rw [hremoved]; rfl⟩

/-- The first phis of a list are visited, and all nodes that are not among them are live still. -/
structure Visited (g : Graph) (front : List NodeId) (r : Change) : Prop where
  consistent : r.graph.Consistent
  live : ∀ id, g.has id = true → id ∉ front → r.graph.has id = true

theorem Visited.visit {g : Graph} {front : List NodeId} {r r' : Change} {phi : NodeId} (h : Visited g front r)
    (hvisit : visit r phi = .ok r') : Visited g (front ++ [phi]) r' := by
  have hfront : ∀ id, id ∉ front ++ [phi] → id ∉ front ∧ id ≠ phi := by
    intro id hid
    rw [List.mem_append, List.mem_singleton, not_or] at hid
    exact hid
  rcases bypassed_of_visit hvisit h.consistent with rfl | hbypass
  · exact ⟨h.consistent, fun id hid hnot => h.live id hid (hfront id hnot).1⟩
  · refine ⟨hbypass.consistent, fun id hid hnot => ?_⟩
    obtain ⟨hnot, hne⟩ := hfront id hnot
    exact (hbypass.lacks.has id).2 ⟨h.live id hid hnot, hne⟩

theorem Visited.foldlM {g : Graph} {seen front : List NodeId} {r r' : Change} (h : Visited g seen r)
    (hfold : front.foldlM NoChoice.visit r = .ok r') : Visited g (seen ++ front) r' := by
  induction front generalizing seen r with
  | nil =>
      rw [List.foldlM_nil, pure_eq_ok] at hfold
      rw [List.append_nil, ← hfold]
      exact h
  | cons phi rest ih =>
      rw [List.foldlM_cons] at hfold
      obtain ⟨next, hnext, hrest⟩ := bind_eq_ok.1 hfold
      have hall := ih (h.visit hnext) hrest
      rwa [List.append_assoc] at hall

theorem Visited.refl {g : Graph} (hg : g.Consistent) : Visited g [] ⟨g, 0⟩ := ⟨hg, fun _ hid _ => hid⟩

theorem exists_run {g : Graph} (hg : g.Consistent) : ∃ r, run g = .ok r := by
  have hstep : ∀ front phi back r, g.find .phi = front ++ phi :: back → Visited g front r →
      ∃ r', visit r phi = .ok r' ∧ Visited g (front ++ [phi]) r' := by
    intro front phi back r _ hr
    obtain ⟨r', hvisit⟩ := exists_visit hr.consistent phi
    exact ⟨r', hvisit, hr.visit hvisit⟩
  obtain ⟨r, hr, -⟩ := foldlM_succeeds (Visited g) hstep (.refl hg)
  exact ⟨r, hr⟩

/-- When its turn comes a phi is live: only its own visit may have removed it. -/
theorem live_of_visited {g : Graph} (hg : g.Consistent) {front back : List NodeId} {phi : NodeId} {r : Change}
    (hphis : g.find .phi = front ++ phi :: back) (hvisited : front.foldlM visit ⟨g, 0⟩ = .ok r) :
    r.graph.has phi = true := by
  have hnodup : (front ++ phi :: back).Nodup := hphis ▸ g.nodup_ids.filter _
  have hmem : phi ∈ g.find .phi := by
    rw [hphis]
    simp
  have hlive : g.has phi = true := mem_ids.1 (List.mem_of_mem_filter hmem)
  have hnot : phi ∉ front := fun hfront => (List.nodup_append.1 hnodup).2.2 phi hfront phi List.mem_cons_self rfl
  exact ((Visited.refl hg).foldlM hvisited).live phi hlive hnot

end NoChoice

/-! ## Lowering -/

namespace Tagging

theorem exists_lowerTest {g : Graph} {id : NodeId} (hid : g.has id = true) : ∃ g', lowerTest g id = .ok g' :=
  exists_replace_addNode hid .isTaggedFixnum (carriedProps g id)

theorem exists_convert {g : Graph} (hg : g.Consistent) {e : Edge} (he : 0 < g.multiplicity e) (op : Op) :
    ∃ r, convert op g e = .ok r := by
  have hmid : (g.addNode op .empty).2.has (g.addNode op .empty).1 = true := by
    rw [has_addNode, decide_eq_true rfl, Bool.true_or]
  obtain ⟨g', hg'⟩ := (hg.addNode op .empty).exists_interdict (by rw [multiplicity_addNode]; exact he) hmid
  refine ⟨⟨_, g'⟩, bind_eq_ok.2 ⟨g', hg', rfl⟩⟩

/-- Of the edges of a graph those of a list are being spliced; the others are there still, and
    of equal ones as many as are to come. -/
structure Splicing (g : Graph) (front : List Edge) (s : Graph) : Prop where
  consistent : s.Consistent
  left : ∀ e, g.multiplicity e ≤ s.multiplicity e + front.count e

theorem Splicing.convert {g s : Graph} {front : List Edge} {e : Edge} {op : Op} {r : NodeId × Graph}
    (h : Splicing g front s) (hr : convert op s e = .ok r) : Splicing g (front ++ [e]) r.2 := by
  refine ⟨consistent_convert hr h.consistent, fun x => ?_⟩
  obtain ⟨spliced, hspliced, hpair⟩ := bind_eq_ok.1 hr
  obtain rfl : spliced = r.2 := congrArg Prod.snd (Except.ok.inj hpair)
  obtain ⟨-, -, -, hlaw⟩ := interdict_law hspliced
  have hleft := h.left x
  have hcount := hlaw x
  change _ = (s.addNode op .empty).2.multiplicity x + _ + _ at hcount
  rw [multiplicity_addNode] at hcount
  rw [List.count_append]
  omega

/-- An edge that is still to come is there. -/
theorem Splicing.pos {g s : Graph} {front back edges : List Edge} {e : Edge} (h : Splicing g front s)
    (hstored : ∀ x, edges.count x ≤ g.multiplicity x) (hsplit : edges = front ++ e :: back) :
    0 < s.multiplicity e := by
  have hleft := h.left e
  have hcount := hstored e
  rw [hsplit, List.count_append, List.count_cons_self] at hcount
  omega

theorem exists_untagOperands {g : Graph} (hg : g.Consistent) {edges : List Edge}
    (hstored : ∀ e, edges.count e ≤ g.multiplicity e) : ∃ g', edges.foldlM untagOperand g = .ok g' := by
  have hstep : ∀ front e back s, edges = front ++ e :: back → Splicing g front s →
      ∃ s', untagOperand s e = .ok s' ∧ Splicing g (front ++ [e]) s' := by
    intro front e back s hsplit hs
    obtain ⟨r, hr⟩ := exists_convert hs.consistent (hs.pos hstored hsplit) .untagFixnum
    exact ⟨r.2, bind_eq_ok.2 ⟨r, hr, rfl⟩, hs.convert hr⟩
  obtain ⟨g', hg', -⟩ := foldlM_succeeds (Splicing g) hstep ⟨hg, fun e => by simp⟩
  exact ⟨g', hg'⟩

theorem exists_tagUses {g : Graph} (hg : g.Consistent) {edges : List Edge}
    (hstored : ∀ e, edges.count e ≤ g.multiplicity e) :
    ∃ state, edges.foldlM tagUse (([] : List NodeId), g) = .ok state := by
  have hstep : ∀ front e back (state : List NodeId × Graph), edges = front ++ e :: back →
      Splicing g front state.2 → ∃ state', tagUse state e = .ok state' ∧ Splicing g (front ++ [e]) state'.2 := by
    intro front e back state hsplit hs
    obtain ⟨r, hr⟩ := exists_convert hs.consistent (hs.pos hstored hsplit) .tagFixnum
    exact ⟨(state.1 ++ [r.1], r.2), bind_eq_ok.2 ⟨r, hr, rfl⟩, hs.convert hr⟩
  have hnone : Splicing g [] (([] : List NodeId), g).2 := ⟨hg, fun e => by simp⟩
  obtain ⟨state, hstate, -⟩ :=
    foldlM_succeeds (fun front (state : List NodeId × Graph) => Splicing g front state.2) hstep hnone
  exact ⟨state, hstate⟩

/-- Live nodes can be put in control flow one after the other, and no node goes. -/
theorem exists_sequenceTags {g : Graph} {add next : NodeId} {tags : List NodeId} (hadd : g.has add = true)
    (hnext : g.has next = true) (htags : ∀ mid ∈ tags, g.has mid = true) :
    ∃ g', tags.foldlM (sequenceTag add next) g = .ok g' ∧ ∀ id, g'.has id = g.has id := by
  induction tags generalizing g with
  | nil => exact ⟨g, rfl, fun _ => rfl⟩
  | cons mid rest ih =>
      have hmid := htags mid List.mem_cons_self
      obtain ⟨sequenced, hsequenced, hlive⟩ : ∃ sequenced, sequenceTag add next g mid = .ok sequenced ∧
          ∀ id, sequenced.has id = g.has id := by
        refine ⟨_, bind_eq_ok.2 ⟨_, connect_eq_ok.2 ⟨hadd, hmid, rfl⟩, connect_eq_ok.2 ⟨?_, ?_, rfl⟩⟩, ?_⟩
        · rw [has_linkEdge]
          exact hmid
        · rw [has_linkEdge]
          exact hnext
        · intro id
          rw [has_linkEdge, has_linkEdge]
      obtain ⟨g', hrest, hkept⟩ := ih (by rw [hlive]; exact hadd) (by rw [hlive]; exact hnext)
        fun other hother => by
          rw [hlive]
          exact htags other (List.mem_cons_of_mem mid hother)
      refine ⟨g', ?_, fun id => by rw [hkept, hlive]⟩
      rw [List.foldlM_cons, hsequenced]
      exact hrest

theorem exists_lowerAdd {g : Graph} {add : NodeId} (hg : g.Consistent) (hadd : g.op add = .fixnumAdd) :
    ∃ g', lowerAdd g add = .ok g' := by
  have hinputs : ∀ e, (g.inputsWhere add Role.isValue).count e ≤ g.multiplicity e := fun e =>
    (List.filter_sublist.count_le e).trans (hg.count_inputs_le add e)
  -- Each phase finds the edges it rewrites: they are listed at most as often as they are stored
  -- in the graph that the phase before has left.
  obtain ⟨untagged, huntagged⟩ := exists_untagOperands hg hinputs
  have hu := reached_of_untagOperands hg hadd huntagged
  have huadd := (hu.adds add).2 hadd
  have houtputs : ∀ e, (untagged.outputsWhere add Role.isValue).count e ≤ untagged.multiplicity e := by
    intro e
    rw [hu.consistent.multiplicity_eq]
    exact (List.filter_sublist.count_le e).trans (hu.consistent.count_outputs_le add e)
  obtain ⟨⟨tags, tagged⟩, htagged⟩ := exists_tagUses hu.consistent houtputs
  have ht := tagged_of_tagUses hu.consistent huadd htagged
  have htadd : tagged.has add = true := has_of_op_ne_invalid (by rw [(ht.reached.adds add).2 huadd]; decide)
  have htags : ∀ mid ∈ tags, tagged.has mid = true := fun mid hmid =>
    (ht.reached.consistent.has_of_multiplicity (ht.pending mid hmid).fed).2
  -- An addition that floats has no successor to sequence its conversions before.
  cases hnext : tagged.controlSuccessors add with
  | nil =>
      obtain ⟨g', hreplace⟩ := exists_replace_addNode htadd .int64Add (carriedProps tagged add)
      refine ⟨g', bind_eq_ok.2 ⟨untagged, huntagged, bind_eq_ok.2 ⟨(tags, tagged), htagged, ?_⟩⟩⟩
      dsimp only
      rw [hnext]
      exact hreplace
  | cons next others =>
      have hmem : next ∈ tagged.controlSuccessors add := by
        rw [hnext]
        exact List.mem_cons_self
      obtain ⟨e, he, rfl⟩ := List.mem_map.1 hmem
      have hlive : tagged.has e.target = true := ht.reached.consistent.has_target (List.mem_of_mem_filter he)
      obtain ⟨sequenced, hsequenced, hkept⟩ := exists_sequenceTags htadd hlive htags
      have hsadd : sequenced.has add = true := by
        rw [hkept]
        exact htadd
      obtain ⟨g', hreplace⟩ := exists_replace_addNode hsadd .int64Add (carriedProps sequenced add)
      refine ⟨g', bind_eq_ok.2 ⟨untagged, huntagged, bind_eq_ok.2 ⟨(tags, tagged), htagged, ?_⟩⟩⟩
      dsimp only
      rw [hnext]
      exact bind_eq_ok.2 ⟨sequenced, hsequenced, hreplace⟩

theorem exists_lowerTests {tests : List NodeId} {g : Graph} (hg : g.Consistent) (hnodup : tests.Nodup)
    (hlive : ∀ id ∈ tests, g.has id = true) : ∃ g', tests.foldlM lowerTest g = .ok g' := by
  induction tests generalizing g with
  | nil => exact ⟨g, rfl⟩
  | cons test rest ih =>
      obtain ⟨hnotRest, hnodup⟩ := List.nodup_cons.1 hnodup
      obtain ⟨next, hnext⟩ := exists_lowerTest (hlive test List.mem_cons_self)
      have hrename := (hg.renamed_of_replace hnext).1
      have hrest : ∀ id ∈ rest, next.has id = true := by
        intro id hid
        apply (hrename.has id).2
        refine .inl ⟨hlive id (List.mem_cons_of_mem test hid), ?_⟩
        rintro rfl
        exact hnotRest hid
      rw [List.foldlM_cons, hnext]
      exact ih (consistent_lowerTest hnext hg) hnodup hrest

theorem exists_lowerAdds {adds : List NodeId} {g : Graph} (hg : g.Consistent) (hnodup : adds.Nodup)
    (hadds : ∀ id ∈ adds, g.op id = .fixnumAdd) : ∃ g', adds.foldlM lowerAdd g = .ok g' := by
  induction adds generalizing g with
  | nil => exact ⟨g, rfl⟩
  | cons add rest ih =>
      obtain ⟨next, hnext⟩ := exists_lowerAdd hg (hadds add List.mem_cons_self)
      have hleft := op_eq_fixnumAdd_of_lowerAdd hg hnodup hadds hnext
      rw [List.foldlM_cons, hnext]
      exact ih (consistent_lowerAdd hnext hg) (List.nodup_cons.1 hnodup).2 hleft

theorem exists_lower {g : Graph} (hg : g.Consistent) : ∃ r, lower g = .ok r := by
  have htests : ∀ id ∈ (g.find .kindIs).filter (isFixnumTest g), g.has id = true := fun id hid =>
    mem_ids.1 (List.mem_of_mem_filter (List.mem_of_mem_filter hid))
  obtain ⟨tested, htested⟩ := exists_lowerTests hg ((g.nodup_ids.filter _).filter _) htests
  obtain ⟨-, hconsistent, hadds⟩ := lowers_of_run_tests hg htested
  obtain ⟨added, hadded⟩ := exists_lowerAdds hconsistent (g.nodup_ids.filter _) fun id hid => (hadds id).2 hid
  exact ⟨_, bind_eq_ok.2 ⟨tested, htested, bind_eq_ok.2 ⟨added, hadded, rfl⟩⟩⟩

/-- An addition is malformed if it has not two operands. -/
def Malformed (g : Graph) (add : NodeId) : Prop :=
  g.op add = .fixnumAdd ∧ (g.inputsWhere add Role.isValue).length ≠ 2

/-- What is checked before anything changes is all that lowering may complain about: a
    malformed addition, which the message names. -/
theorem malformed_of_run_error {g : Graph} (hg : g.Consistent) {cause : Error} (h : run g = .error cause) :
    ∃ add, Malformed g add ∧ cause = .malformed (g.label add) (g.inputsWhere add Role.isValue).length := by
  obtain ⟨r, hr⟩ := exists_lower hg
  rcases bind_eq_error.1 h with hcheck | ⟨_, -, hlower⟩
  · obtain ⟨add, hmem, hadd⟩ := forM_eq_error hcheck
    rw [check] at hadd
    split at hadd
    · cases hadd
    · rename_i hlength
      cases hadd
      exact ⟨add, ⟨(mem_find_iff (by decide)).1 hmem, hlength⟩, rfl⟩
  · rw [hr] at hlower
    cases hlower

end Tagging

/-! ## All passes -/

/-- Only lowering fails, for a malformed addition. -/
theorem malformed_of_run_error {p : Pass} {g : Graph} (hg : g.Consistent) {cause : Error}
    (h : p.run g = .error cause) : p = .taggingLowering ∧ ∃ add, Tagging.Malformed g add ∧
      cause = .malformed (g.label add) (g.inputsWhere add Role.isValue).length := by
  cases p with
  | deadCode =>
      obtain ⟨r, hr⟩ := DeadCode.exists_sweep g.size hg 0
      rw [Pass.run, DeadCode.run, hr] at h
      cases h
  | noChoicePhis =>
      obtain ⟨r, hr⟩ := NoChoice.exists_run hg
      rw [Pass.run, hr] at h
      cases h
  | taggingLowering => exact ⟨rfl, Tagging.malformed_of_run_error hg h⟩

/-- A pass that fails has met an addition without two operands. -/
theorem run_error {p : Pass} {g : Graph} (hg : g.Consistent) {cause : Error} (h : p.run g = .error cause) :
    ∃ label n, cause = .malformed label n := by
  obtain ⟨-, add, -, hcause⟩ := malformed_of_run_error hg h
  exact ⟨_, _, hcause⟩

end SeaOfNodes.Pass
