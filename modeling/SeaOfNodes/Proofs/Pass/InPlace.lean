/-
  SeaOfNodes.Proofs.Pass.InPlace

  Passes as they are run: on one graph, call by call.  Where a pass stops, the graph stays
  as the calls before have left it.  `Pass.run` gives no graph at all with a failure, which
  takes for granted that a pass fails before it has changed anything; that this is so is
  proved here, and with it that a pass tells the truth about what it has changed.
-/
import SeaOfNodes.Outcome
import SeaOfNodes.Proofs.Pass.Report

namespace SeaOfNodes.Pass

open SeaOfNodes.Graph

namespace InPlace

variable {α β σ : Type}

/-- A step on the graph at hand. -/
abbrev Step (β : Type) := Outcome Graph Error β

/-- Make a call on the graph at hand.  One that is refused leaves it. -/
def call (g : Graph) (c : Call) : Step Unit :=
  match c.apply g with
  | .ok g' => .done g' ()
  | .error cause => .failed g (.misuse cause)

/-- Take one step for each member of a list, up to the first that stops.  The answer of a step is
    handed to the next. -/
def forEach (step : Graph → β → α → Step β) : Graph → β → List α → Step β
  | g, b, [] => .done g b
  | g, b, a :: rest => (step g b a).andThen fun g b => forEach step g b rest

/-! ## The passes -/

/-- Remove a node. -/
def removeNode (g : Graph) (_ : Unit) (id : NodeId) : Step Unit := call g (.remove id)

/-- Remove the dead nodes, then those that became dead, for as many rounds as given. -/
def sweep : (rounds : Nat) → Graph → (removed : Nat) → Step Nat
  | 0, g, removed => .done g removed
  | rounds + 1, g, removed =>
    match g.deadNodes with
    | [] => .done g removed
    | dead => (forEach removeNode g () dead).andThen fun g _ => sweep rounds g (removed + dead.length)

/-- Visit one phi: bypass and remove it if it has no choice. -/
def visit (g : Graph) (count : Nat) (phi : NodeId) : Step Nat :=
  match g.soleChoice? phi with
  | none => .done g count
  | some source =>
    (call g (.replaceUses phi source)).andThen fun g _ =>
      (call g (.remove phi)).andThen fun g _ => .done g (count + 1)

/-- Put a new node in the place of another. -/
def supersede (g : Graph) (op : Op) (id : NodeId) : Step Unit :=
  let added := g.addNode op (Tagging.carriedProps g id)
  call added.2 (.replace id added.1)

/-- Lower a kind test if it asks for small integers. -/
def lowerTest (g : Graph) (count : Nat) (id : NodeId) : Step Nat :=
  if Tagging.isFixnumTest g id then
    (supersede g .isTaggedFixnum id).andThen fun g _ => .done g (count + 1)
  else .done g count

/-- Splice a new node onto an edge. -/
def convert (op : Op) (g : Graph) (e : Edge) : Step NodeId :=
  let added := g.addNode op .empty
  (call added.2 (.interdict e added.1)).andThen fun g _ => .done g added.1

/-- Splice an untag node onto an operand. -/
def untagOperand (g : Graph) (_ : Unit) (e : Edge) : Step Unit :=
  (convert .untagFixnum g e).andThen fun g _ => .done g ()

/-- Splice a tag node onto a use and remember it. -/
def tagUse (g : Graph) (tags : List NodeId) (e : Edge) : Step (List NodeId) :=
  (convert .tagFixnum g e).andThen fun g tag => .done g (tags ++ [tag])

/-- Put a tag node in control flow between the addition and what follows it. -/
def sequenceTag (add next : NodeId) (g : Graph) (_ : Unit) (tag : NodeId) : Step Unit :=
  (call g (.connect ⟨add, tag, .control⟩)).andThen fun g _ => call g (.connect ⟨tag, next, .control⟩)

/-- Put the tag nodes in control flow if control leaves the addition. -/
def sequenceTags (add : NodeId) (g : Graph) (tags : List NodeId) : Step Unit :=
  match g.controlSuccessors add with
  | [] => .done g ()
  | next :: _ => forEach (sequenceTag add next) g () tags

/-- Lower one addition. -/
def lowerAdd (g : Graph) (count : Nat) (add : NodeId) : Step Nat :=
  (forEach untagOperand g () (g.inputsWhere add Role.isValue)).andThen fun g _ =>
    (forEach tagUse g [] (g.outputsWhere add Role.isValue)).andThen fun g tags =>
      (sequenceTags add g tags).andThen fun g _ =>
        (supersede g .int64Add add).andThen fun g _ => .done g (count + 1)

/-- Refuse an addition that has not two operands. -/
def check (g : Graph) (_ : Unit) (add : NodeId) : Step Unit := .ofExcept g (Tagging.check g add)

/-- Check every addition, then lower the tests and the additions that were there at first. -/
def lower (g : Graph) : Step Nat :=
  let adds := g.find .fixnumAdd
  (forEach check g () adds).andThen fun g _ =>
    (forEach lowerTest g 0 (g.find .kindIs)).andThen fun g count => forEach lowerAdd g count adds

end InPlace

/-- Run a pass on the graph at hand.  The answer is how many places it changed. -/
def perform : Pass → Graph → InPlace.Step Nat
  | deadCode, g => InPlace.sweep g.size g 0
  | noChoicePhis, g => InPlace.forEach InPlace.visit g 0 (g.find .phi)
  | taggingLowering, g => InPlace.lower g

namespace InPlace

variable {α β σ : Type}

/-! ## Calls that are answered -/

theorem call_of_ok {g g' : Graph} {c : Call} (h : c.apply g = .ok g') : call g c = .done g' () := by
  rw [call, h]

/-- A loop in place does what a loop does that hands on graph and answer together, if each of its
    steps does. -/
theorem forEach_of_foldlM {ε : Type} {f : σ → α → Except ε σ} {step : Graph → β → α → Step β} (graph : σ → Graph)
    (answer : σ → β)
    (hstep : ∀ {s a s'}, f s a = .ok s' → step (graph s) (answer s) a = .done (graph s') (answer s'))
    {l : List α} {s s' : σ} (h : l.foldlM f s = .ok s') :
    forEach step (graph s) (answer s) l = .done (graph s') (answer s') := by
  induction l generalizing s with
  | nil =>
      rw [List.foldlM_nil, pure_eq_ok] at h
      rw [h, forEach]
  | cons a rest ih =>
      rw [List.foldlM_cons] at h
      obtain ⟨next, hnext, hrest⟩ := bind_eq_ok.1 h
      rw [forEach, hstep hnext, Outcome.andThen_done]
      exact ih hrest

/-- A loop whose steps hand on the graph alone. -/
theorem forEach_of_foldlM_graph {f : Graph → α → Except Misuse Graph} {step : Graph → Unit → α → Step Unit}
    (hstep : ∀ {g a g'}, f g a = .ok g' → step g () a = .done g' ()) {l : List α} {g g' : Graph}
    (h : l.foldlM f g = .ok g') : forEach step g () l = .done g' () :=
  forEach_of_foldlM id (fun _ => ()) hstep h

theorem sweep_of_ok {rounds removed : Nat} {g : Graph} {r : Change}
    (h : DeadCode.sweep rounds g removed = .ok r) : sweep rounds g removed = .done r.graph r.count := by
  induction rounds generalizing g removed with
  | zero =>
      cases h
      rfl
  | succ rounds ih =>
      rw [DeadCode.sweep] at h
      rw [sweep]
      cases hdead : g.deadNodes with
      | nil =>
          rw [hdead] at h
          cases h
          rfl
      | cons id rest =>
          rw [hdead] at h
          obtain ⟨swept, hswept, hlater⟩ := bind_eq_ok.1 h
          have hround : forEach removeNode g () (id :: rest) = .done swept () :=
            forEach_of_foldlM_graph (fun hremove => call_of_ok (c := .remove _) hremove) hswept
          dsimp only
          rw [hround, Outcome.andThen_done]
          exact ih hlater

theorem visit_of_ok {r r' : Change} {phi : NodeId} (h : NoChoice.visit r phi = .ok r') :
    visit r.graph r.count phi = .done r'.graph r'.count := by
  rw [visit]
  rcases NoChoice.visit_eq_ok h with ⟨hchoice, rfl⟩ | ⟨source, forwarded, hchoice, hforwarded, hremoved, hcount⟩
  · rw [hchoice]
  · have hcall : call r.graph (.replaceUses phi source) = .done forwarded () := call_of_ok hforwarded
    have hcall' : call forwarded (.remove phi) = .done r'.graph () := call_of_ok hremoved
    rw [hchoice, hcount]
    dsimp only
    rw [hcall, Outcome.andThen_done, hcall', Outcome.andThen_done]

theorem supersede_of_ok {g g' : Graph} {op : Op} {id : NodeId}
    (h : (g.addNode op (Tagging.carriedProps g id)).2.replace id (g.addNode op (Tagging.carriedProps g id)).1 = .ok g') :
    supersede g op id = .done g' () :=
  call_of_ok (c := .replace _ _) h

theorem convert_of_ok {op : Op} {g : Graph} {e : Edge} {r : NodeId × Graph} (h : Tagging.convert op g e = .ok r) :
    convert op g e = .done r.2 r.1 := by
  obtain ⟨spliced, hspliced, hr⟩ := bind_eq_ok.1 h
  cases hr
  have hcall : call (g.addNode op .empty).2 (.interdict e (g.addNode op .empty).1) = .done spliced () :=
    call_of_ok hspliced
  rw [convert, hcall, Outcome.andThen_done]
  rfl

theorem untagOperand_of_ok {g g' : Graph} {e : Edge} (h : Tagging.untagOperand g e = .ok g') :
    untagOperand g () e = .done g' () := by
  obtain ⟨r, hr, hg'⟩ := bind_eq_ok.1 h
  cases hg'
  rw [untagOperand, convert_of_ok hr, Outcome.andThen_done]

theorem untagOperands_of_ok {edges : List Edge} {g g' : Graph} (h : edges.foldlM Tagging.untagOperand g = .ok g') :
    forEach untagOperand g () edges = .done g' () :=
  forEach_of_foldlM_graph (f := Tagging.untagOperand) (fun hstep => untagOperand_of_ok hstep) h

theorem tagUse_of_ok {state state' : List NodeId × Graph} {e : Edge} (h : Tagging.tagUse state e = .ok state') :
    tagUse state.2 state.1 e = .done state'.2 state'.1 := by
  obtain ⟨r, hr, hstate'⟩ := bind_eq_ok.1 h
  cases hstate'
  rw [tagUse, convert_of_ok hr, Outcome.andThen_done]

theorem tagUses_of_ok {edges : List Edge} {state state' : List NodeId × Graph}
    (h : edges.foldlM Tagging.tagUse state = .ok state') :
    forEach tagUse state.2 state.1 edges = .done state'.2 state'.1 :=
  forEach_of_foldlM (f := Tagging.tagUse) Prod.snd Prod.fst (fun hstep => tagUse_of_ok hstep) h

theorem sequenceTag_of_ok {add next tag : NodeId} {g g' : Graph} (h : Tagging.sequenceTag add next g tag = .ok g') :
    sequenceTag add next g () tag = .done g' () := by
  obtain ⟨joined, hjoined, hlinked⟩ := bind_eq_ok.1 h
  have hcall : call g (.connect ⟨add, tag, .control⟩) = .done joined () := call_of_ok hjoined
  rw [sequenceTag, hcall, Outcome.andThen_done]
  exact call_of_ok hlinked

theorem lowerAdd_of_ok {g g' : Graph} {add : NodeId} (count : Nat) (h : Tagging.lowerAdd g add = .ok g') :
    lowerAdd g count add = .done g' (count + 1) := by
  rw [Tagging.lowerAdd] at h
  obtain ⟨untagged, huntagged, h⟩ := bind_eq_ok.1 h
  obtain ⟨⟨tags, tagged⟩, htagged, h⟩ := bind_eq_ok.1 h
  have hu : forEach untagOperand g () (g.inputsWhere add Role.isValue) = .done untagged () :=
    untagOperands_of_ok huntagged
  have ht : forEach tagUse untagged [] (untagged.outputsWhere add Role.isValue) = .done tagged tags :=
    tagUses_of_ok htagged
  rw [lowerAdd, hu, Outcome.andThen_done, ht, Outcome.andThen_done, sequenceTags]
  dsimp only at h
  cases hnext : tagged.controlSuccessors add with
  | nil =>
      rw [hnext] at h
      dsimp only
      rw [Outcome.andThen_done, supersede_of_ok h, Outcome.andThen_done]
  | cons next others =>
      rw [hnext] at h
      obtain ⟨sequenced, hsequenced, hreplace⟩ := bind_eq_ok.1 h
      have hs : forEach (sequenceTag add next) tagged () tags = .done sequenced () :=
        forEach_of_foldlM_graph (fun hstep => sequenceTag_of_ok hstep) hsequenced
      dsimp only
      rw [hs, Outcome.andThen_done, supersede_of_ok hreplace, Outcome.andThen_done]

/-- Whether a kind test asks for small integers does not change before its turn, so a loop that
    looks at it then does what one does that has looked at all of them before. -/
theorem lowerTests_of_ok {g s s' : Graph} {kinds : List NodeId} (count : Nat) (hs : s.Consistent) (hnodup : kinds.Nodup)
    (hlive : ∀ id ∈ kinds, s.has id = true)
    (hsame : ∀ id ∈ kinds, Tagging.isFixnumTest s id = Tagging.isFixnumTest g id)
    (h : (kinds.filter (Tagging.isFixnumTest g)).foldlM Tagging.lowerTest s = .ok s') :
    forEach lowerTest s count kinds = .done s' (count + (kinds.filter (Tagging.isFixnumTest g)).length) := by
  induction kinds generalizing s count with
  | nil =>
      rw [List.filter_nil, List.foldlM_nil, pure_eq_ok] at h
      subst h
      rfl
  | cons id rest ih =>
      obtain ⟨hid, hrestLive⟩ := List.forall_mem_cons.1 hlive
      obtain ⟨hidSame, hrestSame⟩ := List.forall_mem_cons.1 hsame
      obtain ⟨hnot, hnodup⟩ := List.nodup_cons.1 hnodup
      rw [forEach, lowerTest, hidSame]
      by_cases htest : Tagging.isFixnumTest g id = true
      · rw [List.filter_cons_of_pos htest, List.foldlM_cons] at h
        obtain ⟨next, hnext, hrest⟩ := bind_eq_ok.1 h
        have hrename := (hs.renamed_of_replace hnext).1
        have hother : ∀ other ∈ rest, other ≠ id := by
          rintro other hmem rfl
          exact hnot hmem
        have hkept : ∀ other ∈ rest, next.has other = true := fun other hmem =>
          (hrename.has other).2 (.inl ⟨hrestLive other hmem, hother other hmem⟩)
        have hprops : ∀ other ∈ rest, Tagging.isFixnumTest next other = Tagging.isFixnumTest g other := by
          intro other hmem
          -- The new node has a new handle, so it is none of those to come.
          have hne : other ≠ (s.addNode .isTaggedFixnum (Tagging.carriedProps s id)).1 := by
            rintro rfl
            have hfresh := has_addNode_fresh s .isTaggedFixnum (Tagging.carriedProps s id)
            rw [hrestLive _ hmem] at hfresh
            cases hfresh
          rw [← hrestSame other hmem, Tagging.isFixnumTest, hrename.props other (hother other hmem) hne,
            Tagging.isFixnumTest]
        rw [if_pos htest, supersede_of_ok hnext, Outcome.andThen_done, Outcome.andThen_done,
          ih (count + 1) (Tagging.consistent_lowerTest hnext hs) hnodup hkept hprops hrest,
          List.filter_cons_of_pos htest, List.length_cons]
        congr 1
        omega
      · rw [List.filter_cons_of_neg htest] at h ⊢
        rw [if_neg htest, Outcome.andThen_done]
        exact ih count hs hnodup hrestLive hrestSame h

theorem lowerAdds_of_ok {adds : List NodeId} {g g' : Graph} (count : Nat)
    (h : adds.foldlM Tagging.lowerAdd g = .ok g') :
    forEach lowerAdd g count adds = .done g' (count + adds.length) := by
  induction adds generalizing g count with
  | nil =>
      rw [List.foldlM_nil, pure_eq_ok] at h
      subst h
      rfl
  | cons add rest ih =>
      rw [List.foldlM_cons] at h
      obtain ⟨next, hnext, hrest⟩ := bind_eq_ok.1 h
      rw [forEach, lowerAdd_of_ok count hnext, Outcome.andThen_done, ih (count + 1) hrest, List.length_cons]
      congr 1
      omega

/-- The checks read the graph and leave it. -/
theorem forEach_check (g : Graph) (adds : List NodeId) :
    forEach check g () adds = .ofExcept g (adds.forM (Tagging.check g)) := by
  induction adds with
  | nil => rfl
  | cons add rest ih =>
      rw [forEach, check, List.forM]
      cases hcheck : Tagging.check g add with
      | error cause => rfl
      | ok _ => exact ih

theorem lower_eq {g : Graph} (hg : g.Consistent) :
    lower g = match Tagging.run g with
      | .ok r => .done r.graph r.count
      | .error cause => .failed g cause := by
  rw [lower, forEach_check]
  cases hcheck : (g.find .fixnumAdd).forM (Tagging.check g) with
  | error cause =>
      have hrun : Tagging.run g = .error cause := bind_eq_error.2 (.inl hcheck)
      rw [hrun]
      rfl
  | ok _ =>
      obtain ⟨r, hlower⟩ := Tagging.exists_lower hg
      have hrun : Tagging.run g = .ok r := bind_eq_ok.2 ⟨_, hcheck, by rw [hlower]; rfl⟩
      obtain ⟨tested, htested, h⟩ := bind_eq_ok.1 hlower
      obtain ⟨added, hadded, h⟩ := bind_eq_ok.1 h
      cases h
      have hkinds : (g.find .kindIs).Nodup := g.nodup_ids.filter _
      have htests := lowerTests_of_ok 0 hg hkinds
        (fun id hid => mem_ids.1 (List.mem_of_mem_filter hid)) (fun _ _ => rfl) htested
      rw [hrun]
      change (forEach lowerTest g 0 (g.find .kindIs)).andThen
        (fun s count => forEach lowerAdd s count (g.find .fixnumAdd)) = _
      rw [htests, Outcome.andThen_done, lowerAdds_of_ok _ hadded, Nat.zero_add]

end InPlace

/-- On a consistent graph a run in place does what the pass does; one that fails has not touched
    the graph. -/
theorem perform_eq {g : Graph} (hg : g.Consistent) (p : Pass) :
    p.perform g = match p.run g with
      | .ok r => .done r.graph r.count
      | .error cause => .failed g cause := by
  cases p with
  | deadCode =>
      obtain ⟨r, hr⟩ := DeadCode.exists_sweep g.size hg 0
      have hrun : Pass.run .deadCode g = .ok r := mapError_eq_ok.2 hr
      rw [hrun]
      exact InPlace.sweep_of_ok hr
  | noChoicePhis =>
      obtain ⟨r, hr⟩ := NoChoice.exists_run hg
      have hrun : Pass.run .noChoicePhis g = .ok r := mapError_eq_ok.2 hr
      rw [hrun]
      exact InPlace.forEach_of_foldlM Change.graph Change.count InPlace.visit_of_ok hr
  | taggingLowering => exact InPlace.lower_eq hg

/-! ## What a run reports -/

/-- Whether a run reports that it changed something.  One that fails does not. -/
def InPlace.modified (o : InPlace.Step Nat) : Bool :=
  match o.result with
  | .ok count => 0 < count
  | .error _ => false

/-- A pass tells the truth.  It reports a change exactly when some node is not what it was; one that
    reports none, as one that fails does, leaves the graph as it was.  What fails is lowering, and
    exactly when there is a malformed addition, whatever else there is to lower. -/
theorem perform_truthful {g : Graph} (hg : g.Consistent) (p : Pass) :
    (p.perform g).result = (p.run g).map Change.count ∧
      (InPlace.modified (p.perform g) = true ↔ ∃ id, (p.perform g).state.node? id ≠ g.node? id) ∧
      (InPlace.modified (p.perform g) = false → (p.perform g).state = g) ∧
      (∀ cause, (p.perform g).result = .error cause →
        InPlace.modified (p.perform g) = false ∧ (p.perform g).state = g) ∧
      ((∃ cause, (p.perform g).result = .error cause) ↔
        p = .taggingLowering ∧ ∃ add, g.op add = .fixnumAdd ∧ (g.inputsWhere add Role.isValue).length ≠ 2) := by
  have hfails := run_fails_iff hg p
  rw [perform_eq hg]
  cases hrun : p.run g with
  | error cause =>
      rw [hrun] at hfails
      refine ⟨rfl, ?_, fun _ => rfl, fun _ _ => ⟨rfl, rfl⟩, ?_⟩
      · refine iff_of_false Bool.false_ne_true ?_
        rintro ⟨id, hid⟩
        exact hid rfl
      · exact iff_of_true ⟨cause, rfl⟩ (hfails.1 ⟨cause, rfl⟩)
  | ok r =>
      rw [hrun] at hfails
      have hsame : r.count = 0 → r.graph = g := fun hcount => congrArg Change.graph (graph_eq_of_count hrun hcount)
      have hnever : ∀ cause, (Outcome.done r.graph r.count : InPlace.Step Nat).result ≠ .error cause := by
        intro cause h
        cases h
      refine ⟨rfl, ?_, fun hquiet => ?_, fun cause hcause => absurd hcause (hnever cause), ?_⟩
      · constructor
        · intro hmodified
          obtain ⟨id, hid, hgone⟩ := exists_gone_of_count hg hrun (of_decide_eq_true hmodified)
          refine ⟨id, fun heq => ?_⟩
          change r.graph.node? id = g.node? id at heq
          rw [Graph.has, heq] at hgone
          rw [Graph.has, hgone] at hid
          cases hid
        · rintro ⟨id, hid⟩
          refine decide_eq_true (Nat.pos_of_ne_zero fun hcount => hid ?_)
          change r.graph.node? id = g.node? id
          rw [hsame hcount]
      · exact hsame (Nat.eq_zero_of_not_pos (of_decide_eq_false hquiet))
      · refine iff_of_false (not_exists.2 hnever) fun h => ?_
        obtain ⟨cause, hcause⟩ := hfails.2 h
        cases hcause

/-- A test for small integers and an addition of two operands, before one that has lost an
    operand. -/
def shortSum : Graph :=
  (Graph.assemble [.arg, .arg, .kindIs, .fixnumAdd, .fixnumAdd]
    [⟨0, 2, .value⟩, ⟨0, 3, .valueN 0⟩, ⟨1, 3, .valueN 1⟩, ⟨3, 4, .valueN 0⟩]).setProp 2 Props.kind
      (.str Tagging.fixnum)

theorem perform_shortSum_truthful :
    shortSum.Consistent ∧ (∃ cause, (Pass.taggingLowering.perform shortSum).result = .error cause) ∧
      InPlace.modified (Pass.taggingLowering.perform shortSum) = false ∧
      (Pass.taggingLowering.perform shortSum).state = shortSum := by
  have hconsistent : shortSum.Consistent :=
    Consistent.setProp (consistent_assemble (by decide)) _ _ _
  obtain ⟨-, -, -, hfailed, hfails⟩ := perform_truthful hconsistent .taggingLowering
  obtain ⟨cause, hcause⟩ := hfails.2 ⟨rfl, 4, by decide +kernel, by decide +kernel⟩
  obtain ⟨hmodified, hstate⟩ := hfailed cause hcause
  exact ⟨hconsistent, ⟨cause, hcause⟩, hmodified, hstate⟩

end SeaOfNodes.Pass
