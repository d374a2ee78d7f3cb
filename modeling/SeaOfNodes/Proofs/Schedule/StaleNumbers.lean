/-
  SeaOfNodes.Proofs.Schedule.StaleNumbers

  Numbers that a graph comes with.  Descriptions may give nodes sequence properties, and
  numbering overwrites them one node at a time, in the order of the handles: a node that
  comes before its predecessor reads the number that the predecessor came with.  So the
  outcome is the same whatever the numbers are exactly if control leads from lower handles
  to higher ones only, or does not reach some node at all.
-/
import SeaOfNodes.Proofs.Description.Renumbered
import SeaOfNodes.Proofs.Schedule.LongestPath
import Mathlib

namespace SeaOfNodes.Schedule

open SeaOfNodes.Graph Description

/-- Numbering ends in the same way for two graphs with the same nodes and edges: with the same
    failure, or with the same numbers, which grow along control. -/
inductive SameOutcome (g g' : Graph) : Prop
  | missing {cause cause' : Unsequenced} (h : (orderFixed g).result = .error (.missingSequence cause))
      (h' : (orderFixed g').result = .error (.missingSequence cause'))
  | cyclic {n n' : Nat} {label label' : Label} (h : (orderFixed g).result = .error (.cyclicControl n label))
      (h' : (orderFixed g').result = .error (.cyclicControl n' label'))
  | ordered (h : (orderFixed g).result = .ok ()) (h' : (orderFixed g').result = .ok ())
      (hsame : ∀ id, g.isFixed id = true → ∃ n, sequence (orderFixed g).state id = .ok n ∧
        sequence (orderFixed g').state id = .ok n ∧
        (g.op id ≠ .start → ∀ a ∈ g.controlPredecessors id, ∃ m, sequence (orderFixed g).state a = .ok m ∧
          m.toInt < n.toInt))

/-- Control leads from lower handles to higher ones. -/
def Ascending (g : Graph) : Prop := ∀ a b, g.Advances a b → a < b

/-! ## One sweep -/

theorem orderFixed_of_orderSweep {g s : Graph} (h : orderSweep g (g.ids.filter g.isFixed) = .done s []) :
    orderFixed g = .done s () := by
  rw [orderFixed]
  cases hfixed : g.ids.filter g.isFixed with
  | nil =>
      rw [hfixed] at h
      cases h
      rfl
  | cons first rest =>
      rw [hfixed] at h
      rw [List.length_cons, orderLoop, h]
      · rfl
      · simp

/-- A sweep that can number each node that it meets numbers all. -/
theorem orderSweep_whole {P : Graph → List NodeId → Prop}
    (hstep : ∀ {s : Graph} {id : NodeId} {rest : List NodeId}, P s (id :: rest) →
      ∃ n, nextSequence s id = .ok (some n) ∧ P (s.setProp id Props.sequence (.int n)) rest)
    {s : Graph} {todo : List NodeId} (h : P s todo) : ∃ s', orderSweep s todo = .done s' [] ∧ P s' [] := by
  induction todo generalizing s with
  | nil => exact ⟨s, rfl, h⟩
  | cons id rest ih =>
      obtain ⟨n, hnext, hrest⟩ := hstep h
      obtain ⟨s', hsweep, hend⟩ := ih hrest
      refine ⟨s', ?_, hend⟩
      rw [orderSweep, hnext]
      exact hsweep

/-- What holds during a sweep over the fixed nodes, which goes up the handles. -/
structure Sweeping (g s : Graph) (todo : List NodeId) : Prop where
  agree : Agree (fun _ => true) g s
  sorted : todo.Pairwise (· < ·)
  fixed : ∀ id ∈ todo, g.isFixed id = true

theorem Sweeping.begin {g s : Graph} (h : Agree (fun _ => true) g s) :
    Sweeping g s (s.ids.filter s.isFixed) ∧ ∀ id, g.isFixed id = true → id ∈ s.ids.filter s.isFixed := by
  have hfixed : s.ids.filter s.isFixed = g.ids.filter g.isFixed := by
    rw [h.ids]
    exact List.filter_congr fun id _ => h.sameProgram.isFixed id
  rw [hfixed]
  refine ⟨⟨h, g.pairwise_lt_ids.filter _, fun id hid => (List.mem_filter.1 hid).2⟩, fun id hid => ?_⟩
  exact List.mem_filter.2 ⟨mem_ids.2 (has_of_isFixed hid), hid⟩

section Sweeping

variable {g s : Graph} {id : NodeId} {rest : List NodeId} (h : Sweeping g s (id :: rest))
include h

theorem Sweeping.live : s.has id = true := by
  rw [h.agree.has]
  exact has_of_isFixed (h.fixed id List.mem_cons_self)

theorem Sweeping.lt {x : NodeId} (hx : x ∈ rest) : id < x := (List.pairwise_cons.1 h.sorted).1 x hx

theorem Sweeping.next (n : Int64) : Sweeping g (s.setProp id Props.sequence (.int n)) rest where
  agree := h.agree.trans (agree_setProp _ _ _ _ _)
  sorted := (List.pairwise_cons.1 h.sorted).2
  fixed x hx := h.fixed x (List.mem_cons_of_mem id hx)

/-- A node is numbered if control reaches it and has numbers to come from. -/
theorem Sweeping.exists_nextSequence (hentered : AllEntered g)
    (hready : g.op id ≠ .start → ∀ a ∈ g.controlPredecessors id, Numbered s a) :
    ∃ n, nextSequence s id = .ok (some n) := by
  have hsame := h.agree.sameProgram
  have hgood : s.op id = .start ∨ s.controlPredecessors id ≠ [] := by
    rw [hsame.op, hsame.controlPredecessors]
    exact Decidable.or_iff_not_imp_left.2 (hentered id (h.fixed id List.mem_cons_self))
  obtain ⟨next?, hnext, hsome⟩ := nextSequence_eq_ok hgood
  have hids : Ready s id := by
    rw [Ready, hsame.op, hsame.controlPredecessors]
    exact Decidable.or_iff_not_imp_left.2 hready
  obtain ⟨n, rfl⟩ := Option.isSome_iff_exists.1 (hsome hids)
  exact ⟨n, hnext⟩

end Sweeping

/-! ## Control that ascends -/

/-- A path that ascends is no longer than the handle that it leads to. -/
theorem Ascending.length_le {g : Graph} (h : Ascending g) {id : NodeId} {k : Nat} (hpath : g.PathLength id k) :
    (k : Int) ≤ id := by
  induction hpath with
  | start hop =>
      have hlive := has_of_op_ne_invalid (by rw [hop]; decide)
      obtain ⟨i, -, rfl⟩ := exists_slot_of_has hlive
      exact Int.natCast_nonneg i
  | @step a b n _ hstep ih =>
      have hnext : a + 1 ≤ b := Int.add_one_le_iff.2 (h a b hstep)
      exact Int.le_trans (Int.add_le_add_right ih 1) hnext

/-- What holds during a sweep in the order of the handles: what has been met has its distance
    for a number. -/
structure Climbing (g s : Graph) (todo : List NodeId) : Prop extends Sweeping g s todo where
  met : ∀ id, g.isFixed id = true → id ∈ todo ∨ Measures g s id

theorem Climbing.number {g s : Graph} {id : NodeId} {rest : List NodeId} (h : Climbing g s (id :: rest))
    (hg : g.Consistent) (hsize : g.arena.size < 2 ^ 63) (hentered : AllEntered g) (hup : Ascending g) :
    ∃ n, nextSequence s id = .ok (some n) ∧ Climbing g (s.setProp id Props.sequence (.int n)) rest := by
  -- Predecessors come before the nodes that are still to be met.
  have hpreds : g.op id ≠ .start → ∀ a ∈ g.controlPredecessors id, Measures g s a := by
    intro hop a ha
    have hadvances := hg.advances ha hop
    have hlt := hup a id hadvances
    refine (h.met a hadvances.isFixed).resolve_left fun hmem => ?_
    rcases List.mem_cons.1 hmem with rfl | hmem
    · exact Int.lt_irrefl _ hlt
    · exact Int.lt_asymm hlt (h.lt hmem)
  obtain ⟨n, hnext⟩ := h.exists_nextSequence hentered fun hop a ha => by
    obtain ⟨m, -, hm, -⟩ := hpreds hop a ha
    exact ⟨m, hm⟩
  -- Distances are below the number of nodes, so one more does not wrap.
  have hroom : g.op id ≠ .start → ∀ a ∈ g.controlPredecessors id, ∀ m, sequence s a = .ok m →
      m.toInt < 2 ^ 63 - 1 := by
    intro hop a ha m hm
    obtain ⟨j, hj, hmj⟩ := (hpreds hop a ha).longest hm
    have hle := hup.length_le hj.1
    obtain ⟨i, hi, rfl⟩ := exists_slot_of_has (hg.advances ha hop).has
    have hslot : (j : Int) ≤ i := hle
    omega
  obtain ⟨k, hk, hnk⟩ := longest_of_nextSequence hg h.agree.sameProgram hnext hpreds hroom
  refine ⟨n, hnext, h.next n, fun x hx => ?_⟩
  by_cases hxid : x = id
  · subst hxid
    refine .inr ⟨n, k, ?_, hk, hnk⟩
    rw [sequence_setProp h.live, if_pos rfl]
  · refine (h.met x hx).imp (fun hmem => (List.mem_cons.1 hmem).resolve_left hxid) ?_
    rintro ⟨m, j, hm, hj, hmj⟩
    refine ⟨m, j, ?_, hj, hmj⟩
    rw [sequence_setProp h.live, if_neg hxid]
    exact hm

/-- Where control ascends one sweep gives every fixed node its distance, whatever numbers there were. -/
theorem orderFixed_ascending {g s : Graph} (hg : g.Consistent) (hsize : g.arena.size < 2 ^ 63)
    (hentered : AllEntered g) (hup : Ascending g) (hagree : Agree (fun _ => true) g s) :
    ∃ ordered, orderFixed s = .done ordered () ∧ ∀ id, g.isFixed id = true → Measures g ordered id := by
  obtain ⟨hsweeping, hmem⟩ := Sweeping.begin hagree
  have hbegin : Climbing g s (s.ids.filter s.isFixed) := ⟨hsweeping, fun id hid => .inl (hmem id hid)⟩
  obtain ⟨ordered, hsweep, hend⟩ := orderSweep_whole (fun h => h.number hg hsize hentered hup) hbegin
  exact ⟨ordered, orderFixed_of_orderSweep hsweep, fun id hid => (hend.met id hid).resolve_left List.not_mem_nil⟩

/-! ## Control that does not -/

/-- What holds during a sweep over nodes with the largest number, where control leads from `a` back to
    `b`: a node that has been met has lost it, and `b` was met before `a`. -/
structure Overtaking (g s : Graph) (a b : NodeId) (todo : List NodeId) : Prop extends Sweeping g s todo where
  numbered : ∀ id, g.isFixed id = true → Numbered s id
  stale : ∀ id ∈ todo, sequence s id = .ok Int64.maxValue
  wrapped : (b ∈ todo ∧ a ∈ todo) ∨ sequence s b = .ok Int64.minValue

theorem Overtaking.number {g s : Graph} {a b id : NodeId} {rest : List NodeId} (h : Overtaking g s a b (id :: rest))
    (hg : g.Consistent) (hentered : AllEntered g) (hstep : g.Advances a b) (hback : b ≤ a) :
    ∃ n, nextSequence s id = .ok (some n) ∧ Overtaking g (s.setProp id Props.sequence (.int n)) a b rest := by
  have hsame : SameProgram g s := h.agree.sameProgram
  obtain ⟨n, hnext⟩ := h.exists_nextSequence hentered fun hop x hx =>
    h.numbered x (hg.advances hx hop).isFixed
  refine ⟨n, hnext, h.next n, fun x hx => ?_, fun x hx => ?_, ?_⟩
  · exact (numbered_setProp h.live n).2 (.inr (h.numbered x hx))
  · rw [sequence_setProp h.live, if_neg (Int.ne_of_gt (h.lt hx))]
    exact h.stale x (List.mem_cons_of_mem id hx)
  · rw [sequence_setProp h.live]
    by_cases hb : b = id
    · -- The number that `b` reads is the largest, and one more is the least.
      subst hb
      have ha : a ∈ b :: rest := by
        refine h.wrapped.elim (fun hboth => hboth.2) fun hmin => ?_
        rw [h.stale b List.mem_cons_self, Except.ok.injEq] at hmin
        exact absurd hmin (by decide)
      rw [if_pos rfl]
      refine .inr ?_
      rcases nextSequence_eq_some hnext with ⟨hop, -⟩ | ⟨-, -, m, hm, rfl⟩
      · rw [hsame.op] at hop
        exact absurd hop hstep.2
      · rw [hsame.controlPredecessors] at hm
        obtain ⟨k, hk, hle⟩ := (highestSequence?_eq_some hm).1 a (hg.mem_controlPredecessors.2 hstep.1)
        rw [h.stale a ha, Except.ok.injEq] at hk
        subst hk
        have hmost : m.toInt ≤ Int64.maxValue.toInt := Int64.toInt_le m
        have hmax : m = Int64.maxValue := Int64.toInt_inj.1 (Int.le_antisymm hmost hle)
        rw [hmax]
        decide
    · -- While `b` is still to be met so is `a`, whose handle is no lower.
      rw [if_neg hb]
      refine h.wrapped.imp_left fun ⟨hbmem, hamem⟩ => ?_
      have hbrest := (List.mem_cons.1 hbmem).resolve_left hb
      refine ⟨hbrest, (List.mem_cons.1 hamem).resolve_left ?_⟩
      rintro rfl
      exact Int.not_le.2 (h.lt hbrest) hback

/-- A graph whose nodes all come with the largest number is numbered, but not so that numbers grow. -/
theorem orderFixed_overtaking {g s : Graph} (hg : g.Consistent) (hentered : AllEntered g) {a b : NodeId}
    (hstep : g.Advances a b) (hback : b ≤ a) (hagree : Agree (fun _ => true) g s)
    (hstale : ∀ id, g.has id = true → sequence s id = .ok Int64.maxValue) :
    ∃ ordered, orderFixed s = .done ordered () ∧ sequence ordered b = .ok Int64.minValue := by
  obtain ⟨hsweeping, hmem⟩ := Sweeping.begin hagree
  have hbegin : Overtaking g s a b (s.ids.filter s.isFixed) := {
    toSweeping := hsweeping
    numbered := fun id hid => ⟨_, hstale id (has_of_isFixed hid)⟩
    stale := fun id hid => hstale id (has_of_isFixed (hsweeping.fixed id hid))
    wrapped := .inl ⟨hmem b (hg.isFixed_of_controlSuccessors hstep.1), hmem a hstep.isFixed⟩
  }
  obtain ⟨ordered, hsweep, hend⟩ := orderSweep_whole (P := fun s => Overtaking g s a b)
    (fun h => h.number hg hentered hstep hback) hbegin
  exact ⟨ordered, orderFixed_of_orderSweep hsweep, hend.wrapped.resolve_left fun hboth => List.not_mem_nil hboth.1⟩

/-! ## Graphs that can be built -/

/-- Whatever sequence properties the nodes of a description have, numbering the graph that it builds
    ends in the same way. -/
def StaleFree (g : Graph) : Prop :=
  ∀ spec₁ spec₂ g₁ g₂, build spec₁ = .ok g₁ → build spec₂ = .ok g₂ → g.Renumbered g₁ → g.Renumbered g₂ →
    SameOutcome g₁ g₂

theorem allEntered_congr {g s : Graph} (h : SameProgram g s) : AllEntered s ↔ AllEntered g := by
  simp only [AllEntered, h.isFixed, h.op, h.controlPredecessors]

theorem missingSequence_iff {g : Graph} :
    (∃ cause, (orderFixed g).result = .error (.missingSequence cause)) ↔ ¬ AllEntered g := by
  constructor
  · rintro ⟨cause, hmissing⟩ hentered
    rcases orderFixed_cases hentered with ⟨s, hdone⟩ | ⟨n, label, hcyclic⟩
    · rw [hdone] at hmissing
      cases hmissing
    · rw [hcyclic] at hmissing
      cases hmissing
  · intro h
    obtain ⟨label, hmissing⟩ := orderFixed_of_not_entered h
    exact ⟨_, hmissing⟩

theorem SameOutcome.of_ascending {g g₁ g₂ : Graph} (hg : g.Consistent) (hsize : g.arena.size < 2 ^ 63)
    (hentered : AllEntered g) (hup : Ascending g) (h₁ : g.Renumbered g₁) (h₂ : g.Renumbered g₂) :
    SameOutcome g₁ g₂ := by
  obtain ⟨s₁, hdone₁, hmeasures₁⟩ := orderFixed_ascending hg hsize hentered hup h₁.agree
  obtain ⟨s₂, hdone₂, hmeasures₂⟩ := orderFixed_ascending hg hsize hentered hup h₂.agree
  refine .ordered (by rw [hdone₁]; rfl) (by rw [hdone₂]; rfl) fun id hid => ?_
  rw [h₁.sameProgram.isFixed] at hid
  obtain ⟨n, k, hn, hk, hnk⟩ := hmeasures₁ id hid
  obtain ⟨m, j, hm, hj, hmj⟩ := hmeasures₂ id hid
  obtain rfl := hk.unique hj
  obtain rfl : n = m := Int64.toInt_inj.1 (hnk.trans hmj.symm)
  rw [hdone₁, hdone₂, h₁.sameProgram.op, h₁.sameProgram.controlPredecessors]
  refine ⟨n, hn, hm, fun hop a ha => ?_⟩
  have hadvances := hg.advances ha hop
  obtain ⟨i, l, hi, hl, hil⟩ := hmeasures₁ a hadvances.isFixed
  have hlt := hl.lt_of_advances hk hadvances
  exact ⟨i, hi, by omega⟩

/-- The outcome depends on no numbers that a description gives if and only if control does not reach
    some fixed node, and then numbering fails, or leads from lower handles to higher ones only.
    Whether it fails for the first reason never depends on them. -/
theorem staleFree_iff {spec : GraphSpec} {g : Graph} (h : build spec = .ok g) (hsize : g.arena.size < 2 ^ 63) :
    (∀ g', g.Renumbered g' →
      ((∃ cause, (orderFixed g').result = .error (.missingSequence cause)) ↔ ¬ AllEntered g)) ∧
    (StaleFree g ↔ ¬ AllEntered g ∨ Ascending g) := by
  have hg := consistent_of_build h
  have hmissing : ∀ g', g.Renumbered g' →
      ((∃ cause, (orderFixed g').result = .error (.missingSequence cause)) ↔ ¬ AllEntered g) := by
    intro g' hagree
    rw [missingSequence_iff, allEntered_congr hagree.sameProgram]
  refine ⟨hmissing, fun hfree => ?_, fun hcond spec₁ spec₂ g₁ g₂ _ _ h₁ h₂ => ?_⟩
  · rw [← imp_iff_not_or]
    intro hentered a b hstep
    by_contra hback
    -- Give all nodes the largest number.
    have hvalue : (Value.ofInt (2 ^ 63 - 1)).toLiteral = .ok (.int Int64.maxValue) := by rfl
    obtain ⟨spec', g', hbuild, hagree, hstale⟩ := exists_build_stamped h hvalue
    obtain ⟨ordered, hdone, hmin⟩ := orderFixed_overtaking hg hentered hstep (Int.not_lt.1 hback) hagree.agree
      fun id hid => by rw [sequence_eq_ok, Props.int?, hstale id hid]; rfl
    have hok : (orderFixed g').result = .ok () := by
      rw [hdone]
      rfl
    cases hfree spec' spec' g' g' hbuild hbuild hagree hagree with
    | missing hfails => simp [hok] at hfails
    | cyclic hfails => simp [hok] at hfails
    | ordered _ _ hsame =>
        have hb : g'.isFixed b = true := by
          rw [hagree.sameProgram.isFixed]
          exact hg.isFixed_of_controlSuccessors hstep.1
        obtain ⟨n, hn, -, habove⟩ := hsame b hb
        rw [hdone] at hn habove
        obtain rfl : Int64.minValue = n := Except.ok.inj (hmin.symm.trans hn)
        rw [hagree.sameProgram.op, hagree.sameProgram.controlPredecessors] at habove
        obtain ⟨m, -, hlt⟩ := habove hstep.2 a (hg.mem_controlPredecessors.2 hstep.1)
        have hleast : Int64.minValue.toInt ≤ m.toInt := Int64.le_toInt m
        omega
  · by_cases hentered : AllEntered g
    · exact .of_ascending hg hsize hentered (hcond.resolve_left (not_not.2 hentered)) h₁ h₂
    · obtain ⟨cause₁, hfails₁⟩ := (hmissing g₁ h₁).2 hentered
      obtain ⟨cause₂, hfails₂⟩ := (hmissing g₂ h₂).2 hentered
      exact .missing hfails₁ hfails₂

/-- A finish that is declared before the safepoint that leads to it. -/
example : sequence (orderFixed ((Graph.assemble [.start, .finish, .safepoint]
    [⟨2, 1, .control⟩, ⟨0, 2, .control⟩]).setProp 2 Props.sequence (.int Int64.maxValue))).state 1
      = .ok Int64.minValue := by
  decide +kernel

/-- A description of a start, a safepoint after it and a finish after that. -/
def straight : GraphSpec where
  name := "straight"
  source := ""
  nodes := [⟨"start", "begin", [], []⟩, ⟨"safepoint", "mid", [], [⟨"control", "begin"⟩]⟩,
    ⟨"finish", "end", [], [⟨"control", "mid"⟩]⟩]

/-- Its graph. -/
def straightGraph : Graph :=
  Graph.assemble [.start, .safepoint, .finish] [⟨0, 1, .control⟩, ⟨1, 2, .control⟩]

/-- Nodes that are declared in the order of control are numbered alike whatever numbers they have. -/
theorem staleFree_straight :
    build straight = .ok straightGraph ∧ straightGraph.arena.size < 2 ^ 63 ∧ StaleFree straightGraph := by
  have hbuild : build straight = .ok straightGraph := by cbv
  have hsize : straightGraph.arena.size < 2 ^ 63 := by decide +kernel
  refine ⟨hbuild, hsize, (staleFree_iff hbuild hsize).2.2 (.inr fun a b hstep => ?_)⟩
  have hup : ∀ a ∈ straightGraph.ids, ∀ b ∈ straightGraph.controlSuccessors a, a < b := by decide +kernel
  exact hup a (mem_ids.2 hstep.has) b hstep.1

/-- A description of two nodes that only lead to each other, of which one has some properties. -/
def circle (props : List (String × Value)) : GraphSpec where
  name := "circle"
  source := ""
  nodes := [⟨"start", "begin", [], []⟩, ⟨"finish", "end", [], [⟨"control", "begin"⟩]⟩,
    ⟨"safepoint", "a", [], [⟨"control", "b"⟩]⟩, ⟨"safepoint", "b", props, [⟨"control", "a"⟩]⟩]

/-- Its graph, without properties. -/
def circleGraph : Graph :=
  Graph.assemble [.start, .finish, .safepoint, .safepoint] [⟨0, 1, .control⟩, ⟨3, 2, .control⟩, ⟨2, 3, .control⟩]

/-- Numbering finds the circle, unless one of the two nodes comes with a number. -/
theorem orderFixed_circle_stale :
    build (circle []) = .ok circleGraph ∧
      build (circle [("sequence", .ofInt 5)]) = .ok (circleGraph.setProp 3 Props.sequence (.int 5)) ∧
      circleGraph.Renumbered (circleGraph.setProp 3 Props.sequence (.int 5)) ∧
      (orderFixed circleGraph).result = .error (.cyclicControl 2 ⟨2, .safepoint⟩) ∧
      (orderFixed (circleGraph.setProp 3 Props.sequence (.int 5))).result = .ok () ∧
      ¬ SameOutcome circleGraph (circleGraph.setProp 3 Props.sequence (.int 5)) := by
  have hcyclic : (orderFixed circleGraph).result = .error (.cyclicControl 2 ⟨2, .safepoint⟩) := by decide +kernel
  have hok : (orderFixed (circleGraph.setProp 3 Props.sequence (.int 5))).result = .ok () := by decide +kernel
  refine ⟨by cbv, by cbv, .setProp _ _ _, hcyclic, hok, fun hsame => ?_⟩
  cases hsame with
  | missing _ hfails => simp [hok] at hfails
  | cyclic _ hfails => simp [hok] at hfails
  | ordered hdone => simp [hcyclic] at hdone

end SeaOfNodes.Schedule
