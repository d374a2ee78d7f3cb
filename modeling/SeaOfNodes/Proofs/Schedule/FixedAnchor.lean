/-
  SeaOfNodes.Proofs.Schedule.FixedAnchor

  Chains of anchors.  A chain leads from a node through floating nodes, each with
  one anchor, to a fixed node.  It never visits a node twice, so the step bound
  of `fixedAnchor` never cuts one off: the search succeeds exactly when there is
  a chain.
-/
import SeaOfNodes.Proofs.Except
import SeaOfNodes.Proofs.Lists
import SeaOfNodes.Proofs.Schedule.Closure
import Mathlib.Data.List.Perm.Subperm

namespace SeaOfNodes.Schedule

/-- The anchors of floating nodes lead from a node to a fixed one, through the
    listed floating nodes. -/
inductive AnchorChain (g : Graph) : NodeId → List NodeId → NodeId → Prop
  | fixed {id : NodeId} (hfixed : g.isFixed id = true) : AnchorChain g id [] id
  | anchored {id : NodeId} {e : Edge} {rest : List NodeId} {last : NodeId}
      (hfloating : g.isFixed id = false) (hanchor : g.outputsNamed id .globalSchedule = [e])
      (htail : AnchorChain g e.target rest last) : AnchorChain g id (id :: rest) last

/-- A node is placed at a fixed one. -/
def PlacedAt (g : Graph) (id last : NodeId) : Prop := ∃ passed, AnchorChain g id passed last

namespace AnchorChain

variable {g : Graph} {id last : NodeId} {passed : List NodeId}

theorem isFixed_last (h : AnchorChain g id passed last) : g.isFixed last = true := by
  induction h with
  | fixed hfixed => exact hfixed
  | anchored _ _ _ ih => exact ih

/-- There is one chain from a node. -/
theorem unique (h : AnchorChain g id passed last) {passed' : List NodeId} {last' : NodeId}
    (h' : AnchorChain g id passed' last') : passed = passed' ∧ last = last' := by
  induction h generalizing passed' last' with
  | fixed hfixed =>
      cases h' with
      | fixed _ => exact ⟨rfl, rfl⟩
      | anchored hfloating _ _ => rw [hfixed] at hfloating; cases hfloating
  | anchored hfloating hanchor _ ih =>
      cases h' with
      | fixed hfixed => rw [hfixed] at hfloating; cases hfloating
      | anchored _ hanchor' htail' =>
          rw [hanchor] at hanchor'
          cases hanchor'
          obtain ⟨hpassed, hlast⟩ := ih htail'
          exact ⟨by rw [hpassed], hlast⟩

/-- From a node on a chain there is a chain that is no longer. -/
theorem of_mem (h : AnchorChain g id passed last) {x : NodeId} (hx : x ∈ passed) :
    ∃ shorter, AnchorChain g x shorter last ∧ shorter.length ≤ passed.length := by
  induction h with
  | fixed _ => simp at hx
  | @anchored id e rest last hfloating hanchor htail ih =>
      rcases List.mem_cons.1 hx with rfl | hx
      · exact ⟨x :: rest, .anchored hfloating hanchor htail, Nat.le_refl _⟩
      · obtain ⟨shorter, hchain, hlen⟩ := ih hx
        exact ⟨shorter, hchain, by simp only [List.length_cons]; omega⟩

/-- A chain visits no node twice: a second visit would begin a shorter chain. -/
theorem nodup (h : AnchorChain g id passed last) : passed.Nodup := by
  induction h with
  | fixed _ => exact List.nodup_nil
  | @anchored id e rest last hfloating hanchor htail ih =>
      refine List.nodup_cons.2 ⟨fun hmem => ?_, ih⟩
      obtain ⟨shorter, hchain, hlen⟩ := htail.of_mem hmem
      obtain ⟨rfl, -⟩ := (anchored hfloating hanchor htail).unique hchain
      simp only [List.length_cons] at hlen
      omega

/-- A chain passes floating nodes. -/
theorem floating_of_mem (h : AnchorChain g id passed last) : ∀ x ∈ passed, g.isFixed x = false := by
  induction h with
  | fixed _ => simp
  | anchored hfloating _ _ ih =>
      intro x hx
      rcases List.mem_cons.1 hx with rfl | hx
      · exact hfloating
      · exact ih x hx

/-- A node that a chain passes has one anchor. -/
theorem anchor_of_mem (h : AnchorChain g id passed last) {x : NodeId} (hx : x ∈ passed) :
    g.outputsNamed x .globalSchedule ≠ [] := by
  obtain ⟨shorter, hchain, -⟩ := h.of_mem hx
  cases hchain with
  | fixed hfixed => rw [h.floating_of_mem _ hx] at hfixed; cases hfixed
  | anchored _ hanchor _ => simp [hanchor]

/-- The nodes a chain passes are in use. -/
theorem has_of_mem (h : AnchorChain g id passed last) {x : NodeId} (hx : x ∈ passed) :
    g.has x = true := by
  obtain ⟨e, he⟩ := List.exists_mem_of_ne_nil _ (h.anchor_of_mem hx)
  exact Graph.has_of_mem_outputs (List.mem_of_mem_filter he)

theorem length_le_size (h : AnchorChain g id passed last) : passed.length ≤ g.size := by
  rw [Graph.size_eq_length_ids]
  exact (List.subperm_of_subset h.nodup fun x hx => Graph.mem_ids.2 (h.has_of_mem hx)).length_le

end AnchorChain

/-- Following anchors succeeds when a chain ends within the steps allowed. -/
theorem followAnchors_eq_ok {g : Graph} {origin id last : NodeId} {steps : Nat} :
    followAnchors g origin steps id = .ok last
      ↔ ∃ passed, AnchorChain g id passed last ∧ passed.length < steps := by
  induction steps generalizing id with
  | zero => simp [followAnchors]
  | succ steps ih =>
      rw [followAnchors]
      cases hfixed : g.isFixed id with
      | true =>
          simp only [if_true]
          constructor
          · intro h
            cases h
            exact ⟨[], .fixed hfixed, by simp⟩
          · rintro ⟨passed, hchain, -⟩
            obtain ⟨-, rfl⟩ := hchain.unique (.fixed hfixed)
            rfl
      | false =>
          simp only [Bool.false_eq_true, if_false]
          constructor
          · intro h
            split at h
            · cases h
            · rename_i e hanchor
              obtain ⟨passed, hchain, hlen⟩ := ih.1 h
              exact ⟨id :: passed, .anchored hfixed hanchor hchain, by simpa using hlen⟩
            · cases h
          · rintro ⟨passed, hchain, hlen⟩
            cases hchain with
            | fixed htrue => rw [htrue] at hfixed; cases hfixed
            | anchored _ hanchor htail =>
                rw [hanchor]
                exact ih.2 ⟨_, htail, by simpa using hlen⟩

/-- The fixed anchor of a node is where its chain ends. -/
theorem fixedAnchor_eq_ok {g : Graph} {id last : NodeId} :
    fixedAnchor g id = .ok last ↔ PlacedAt g id last := by
  rw [fixedAnchor, followAnchors_eq_ok]
  constructor
  · rintro ⟨passed, hchain, -⟩
    exact ⟨passed, hchain⟩
  · rintro ⟨passed, hchain⟩
    exact ⟨passed, hchain, Nat.lt_succ_of_le hchain.length_le_size⟩

theorem PlacedAt.isFixed {g : Graph} {id last : NodeId} (h : PlacedAt g id last) : g.isFixed last = true := by
  obtain ⟨passed, hchain⟩ := h
  exact hchain.isFixed_last

theorem PlacedAt.unique {g : Graph} {id last last' : NodeId} (h : PlacedAt g id last)
    (h' : PlacedAt g id last') : last = last' := by
  obtain ⟨passed, hchain⟩ := h
  obtain ⟨passed', hchain'⟩ := h'
  exact (hchain.unique hchain').2

/-- A chain needs only the anchors of the nodes it passes. -/
theorem AnchorChain.transfer {g g' : Graph} {id last : NodeId} {passed : List NodeId}
    (h : AnchorChain g id passed last) (hfixed : ∀ x, g'.isFixed x = g.isFixed x)
    (hanchors : ∀ x ∈ passed, g'.outputsNamed x .globalSchedule = g.outputsNamed x .globalSchedule) :
    AnchorChain g' id passed last := by
  induction h with
  | fixed h => exact .fixed (by rw [hfixed]; exact h)
  | @anchored id e rest last hfloating hanchor htail ih =>
      refine .anchored (by rw [hfixed]; exact hfloating) ?_ (ih fun x hx =>
        hanchors x (List.mem_cons_of_mem _ hx))
      rw [hanchors id List.mem_cons_self, hanchor]

/-! ## Tests that may fail -/

theorem allHold_eq_ok_true {test : NodeId → Except Error Bool} {ids : List NodeId} :
    allHold test ids = .ok true ↔ ∀ id ∈ ids, test id = .ok true := by
  induction ids with
  | nil => simp [allHold]
  | cons id rest ih =>
      rw [allHold, List.forall_mem_cons, ← ih]
      cases htest : test id with
      | error cause => simp [bind, Except.bind]
      | ok holds => cases holds <;> simp [bind, Except.bind, pure, Except.pure]

theorem mem_filterHold {test : NodeId → Except Error Bool} {ids kept : List NodeId}
    (h : filterHold test ids = .ok kept) {x : NodeId} : x ∈ kept ↔ x ∈ ids ∧ test x = .ok true := by
  induction ids generalizing kept with
  | nil =>
      cases h
      simp
  | cons id rest ih =>
      rw [filterHold] at h
      cases htest : test id with
      | error cause => simp [htest, bind, Except.bind] at h
      | ok holds =>
          cases hrest : filterHold test rest with
          | error cause => simp [htest, hrest, bind, Except.bind] at h
          | ok others =>
              simp only [htest, hrest, bind, Except.bind, pure, Except.pure, Except.ok.injEq] at h
              subst h
              -- Whether `x` is kept is the answer of its own test, the first or a later one.
              by_cases hx : x = id
              · subst hx
                cases holds <;> simp [htest, ih hrest]
              · cases holds <;> simp [hx, ih hrest]

/-! ## Distinct members -/

theorem mem_distinct {x : NodeId} {ids : List NodeId} : x ∈ distinct ids ↔ x ∈ ids := by
  rw [distinct, mem_eraseReps, List.mem_mergeSort]

/-- Members that are all equal are one. -/
theorem distinct_eq_singleton {x : NodeId} {ids : List NodeId} (hne : ids ≠ []) (hall : ∀ y ∈ ids, y = x) :
    distinct ids = [x] := by
  obtain ⟨n, hn⟩ : ∃ n, ids.length = n + 1 := Nat.exists_eq_succ_of_ne_zero (by simpa using hne)
  have hperm : (ids.mergeSort (· ≤ ·)).Perm (List.replicate (n + 1) x) := by
    rw [← hn, ← List.eq_replicate_of_mem hall]
    exact List.mergeSort_perm ids _
  rw [distinct, List.perm_replicate.1 hperm, eraseReps_replicate]

/-! ## The candidate test -/

/-- Control leads from the place of one node to that of another. -/
def AnchorPath (g : Graph) (a b : NodeId) : Prop :=
  ∃ lastA lastB, PlacedAt g a lastA ∧ PlacedAt g b lastB ∧ ControlPath g lastA lastB

theorem anchorReaches_eq_ok_true {g : Graph} {a b : NodeId} :
    anchorReaches g a b = .ok true ↔ AnchorPath g a b := by
  unfold anchorReaches AnchorPath
  simp only [bind_eq_ok, pure_eq_ok, fixedAnchor_eq_ok, controlReaches_iff]
  constructor
  · rintro ⟨lastA, hA, lastB, hB, hpath⟩
    exact ⟨lastA, lastB, hA, hB, hpath⟩
  · rintro ⟨lastA, lastB, hA, hB, hpath⟩
    exact ⟨lastA, hA, lastB, hB, hpath⟩

/-- A candidate lies between the inputs and the uses that are placed. -/
theorem isCandidate_eq_ok_true {g : Graph} {candidate : NodeId} {inputs sites : List NodeId} :
    isCandidate g candidate inputs sites = .ok true ↔
      (∀ input ∈ inputs, isPlaced g input = true → AnchorPath g input candidate) ∧
      ∀ site ∈ sites, isPlaced g site = true → AnchorPath g candidate site := by
  have hholds : ∀ (ids : List NodeId) (test : NodeId → Except Error Bool),
      allHold test (ids.filter (isPlaced g)) = .ok true ↔
        ∀ id ∈ ids, isPlaced g id = true → test id = .ok true := by
    intro ids test
    simp only [allHold_eq_ok_true, List.mem_filter, and_imp]
  simp only [← anchorReaches_eq_ok_true]
  rw [← hholds, ← hholds, isCandidate, bind_eq_ok]
  constructor
  · rintro ⟨reached, hin, hrest⟩
    cases reached with
    | false => simp [pure, Except.pure] at hrest
    | true => exact ⟨hin, by simpa using hrest⟩
  · rintro ⟨hin, hout⟩
    exact ⟨true, hin, by simpa using hout⟩

/-- What wins is nothing or a candidate, and no candidate has a higher number. -/
theorem latest_eq_ok {g : Graph} {best winner : NodeId} {bound : Int64} {found : List NodeId}
    (h : latest g best bound found = .ok winner) :
    ∃ top : Int64, bound.toInt ≤ top.toInt ∧
      (∀ c ∈ found, ∃ last n, PlacedAt g c last ∧ sequence g last = .ok n ∧ n.toInt ≤ top.toInt) ∧
      ((winner = best ∧ top = bound) ∨ (winner ∈ found ∧ ∃ last, PlacedAt g winner last ∧ sequence g last = .ok top)) := by
  induction found generalizing best bound with
  | nil =>
      cases h
      exact ⟨bound, Int.le_refl _, by simp, .inl ⟨rfl, rfl⟩⟩
  | cons c rest ih =>
      rw [latest] at h
      obtain ⟨last, hlast, h⟩ := bind_eq_ok.1 h
      obtain ⟨n, hn, h⟩ := bind_eq_ok.1 h
      rw [fixedAnchor_eq_ok] at hlast
      split at h
      · rename_i hlt
        rw [Int64.lt_iff_toInt_lt] at hlt
        obtain ⟨top, htop, hall, hwins⟩ := ih h
        refine ⟨top, by omega, fun x hx => ?_, .inr ?_⟩
        · rcases List.mem_cons.1 hx with rfl | hx
          · exact ⟨last, n, hlast, hn, htop⟩
          · exact hall x hx
        · rcases hwins with ⟨rfl, rfl⟩ | ⟨hmem, hwins⟩
          · exact ⟨List.mem_cons_self, last, hlast, hn⟩
          · exact ⟨List.mem_cons_of_mem c hmem, hwins⟩
      · rename_i hge
        rw [Int64.lt_iff_toInt_lt] at hge
        obtain ⟨top, htop, hall, hwins⟩ := ih h
        refine ⟨top, htop, fun x hx => ?_, hwins.imp_right fun ⟨hmem, hwins⟩ =>
          ⟨List.mem_cons_of_mem c hmem, hwins⟩⟩
        rcases List.mem_cons.1 hx with rfl | hx
        · exact ⟨last, n, hlast, hn, by omega⟩
        · exact hall x hx

/-- The anchor of a value that several places need: it is no start, it lies between the
    inputs and the uses that are placed, and of the nodes that do none has a higher number. -/
structure SharedAnchor (g : Graph) (id anchor : NodeId) : Prop where
  several : ∀ site, ∃ other ∈ g.useSites id, other ≠ site
  notStart : g.op anchor ≠ .start
  inputs : ∀ input ∈ g.valueInputs id, isPlaced g input = true → AnchorPath g input anchor
  uses : ∀ site ∈ g.useSites id, AnchorPath g anchor site
  latest : ∃ last top, PlacedAt g anchor last ∧ sequence g last = .ok top ∧
    ∀ c ∈ g.ids, c ≠ id → g.op c ≠ .start → isPlaced g c = true →
      (∀ input ∈ g.valueInputs id, isPlaced g input = true → AnchorPath g input c) →
      (∀ site ∈ g.useSites id, AnchorPath g c site) →
      ∃ lastC n, PlacedAt g c lastC ∧ sequence g lastC = .ok n ∧ n.toInt ≤ top.toInt

/-- The candidates are the one place that needs the value, or those among the placed nodes
    that lie between its inputs and its uses. -/
theorem candidates_eq_ok {g : Graph} {id : NodeId} {found : List NodeId} (h : candidates g id = .ok found) :
    (∃ site, distinct (g.useSites id) = [site] ∧ found = [site]) ∨
      (distinct (g.useSites id) ≠ [] ∧ (∀ site, distinct (g.useSites id) ≠ [site]) ∧
        ∀ c, c ∈ found ↔ c ∈ g.ids ∧ c ≠ id ∧ g.op c ≠ .start ∧ isPlaced g c = true ∧
          (∀ input ∈ g.valueInputs id, isPlaced g input = true → AnchorPath g input c) ∧
          ∀ site ∈ g.useSites id, isPlaced g site = true → AnchorPath g c site) := by
  unfold candidates at h
  split at h
  · cases h
  · rename_i site hsites
    exact .inl ⟨site, hsites, (Except.ok.inj h).symm⟩
  · rename_i hnil hsingle
    refine .inr ⟨hnil, hsingle, fun c => ?_⟩
    rw [mem_filterHold h, isCandidate_eq_ok_true]
    simp [mem_distinct, and_assoc]

/-- The anchor of a node all of whose uses are placed is a candidate, and none of the others
    has a higher number. -/
theorem anchorFor_wins {g : Graph} {id anchor : NodeId} (h : anchorFor g id = .ok (some anchor))
    (hanchor : g.has anchor = true) :
    (∀ site ∈ g.useSites id, isPlaced g site = true) ∧ ∃ found last top, candidates g id = .ok found ∧
      anchor ∈ found ∧ PlacedAt g anchor last ∧ sequence g last = .ok top ∧
      ∀ c ∈ found, ∃ lastC n, PlacedAt g c lastC ∧ sequence g lastC = .ok n ∧ n.toInt ≤ top.toInt := by
  unfold anchorFor at h
  cases hready : isReady g id with
  | false => simp [hready] at h
  | true =>
      simp only [hready, Bool.not_true, Bool.false_eq_true, if_false] at h
      obtain ⟨found, hfound, h⟩ := bind_eq_ok.1 h
      obtain ⟨winner, hlatest, hsame⟩ : ∃ winner, latest g (-1) (-1) found = .ok winner ∧ some winner = some anchor := by
        split at h
        · cases h
        · obtain ⟨winner, hlatest, hsame⟩ := bind_eq_ok.1 h
          exact ⟨winner, hlatest, pure_eq_ok.1 hsame⟩
      obtain rfl := Option.some.inj hsame
      obtain ⟨top, -, hall, hwins⟩ := latest_eq_ok hlatest
      -- The handle that stands for no anchor is not that of a node.
      obtain ⟨hmem, last, hlast, htop⟩ := hwins.resolve_left fun hnone => by
        rw [hnone.1] at hanchor
        cases hanchor
      exact ⟨by simpa [isReady] using hready, found, last, top, hfound, hmem, hlast, htop, hall⟩

/-- The anchor of a node is where all its uses are, or else of the candidates one with
    the highest number. -/
theorem anchorFor_eq_some {g : Graph} {id anchor : NodeId} (h : anchorFor g id = .ok (some anchor))
    (hanchor : g.has anchor = true) :
    (∀ site ∈ g.useSites id, isPlaced g site = true) ∧ g.useSites id ≠ [] ∧
      ((∀ site ∈ g.useSites id, site = anchor) ∨ SharedAnchor g id anchor) := by
  obtain ⟨hplaced, found, last, top, hfound, hmem, hlast, htop, hall⟩ := anchorFor_wins h hanchor
  refine ⟨hplaced, ?_⟩
  rcases candidates_eq_ok hfound with ⟨site, hsites, rfl⟩ | ⟨hnil, hsingle, hiff⟩
  · -- One place needs the value.
    obtain rfl := List.mem_singleton.1 hmem
    have hone : ∀ x, x ∈ g.useSites id ↔ x = anchor := fun x => by
      rw [← mem_distinct, hsites, List.mem_singleton]
    exact ⟨List.ne_nil_of_mem ((hone anchor).2 rfl), .inl fun x hx => (hone x).1 hx⟩
  · -- Several do, so the anchor passed the test against all of them.
    have hused : g.useSites id ≠ [] := by
      intro hempty
      refine hnil (List.eq_nil_iff_forall_not_mem.2 fun x hx => ?_)
      rw [mem_distinct, hempty] at hx
      cases hx
    have hseveral : ∀ site, ∃ other ∈ g.useSites id, other ≠ site := fun site => by
      by_contra hnone
      refine hsingle site (distinct_eq_singleton hused fun x hx => ?_)
      by_contra hne
      exact hnone ⟨x, hx, hne⟩
    obtain ⟨-, -, hstart, -, hinputs, hsites⟩ := (hiff anchor).1 hmem
    exact ⟨hused, .inr ⟨hseveral, hstart, hinputs, fun site hsite => hsites site hsite (hplaced site hsite), last, top, hlast, htop,
      fun c hc hne hop hplacedC hin hout =>
        hall c ((hiff c).2 ⟨hc, hne, hop, hplacedC, hin, fun site hsite _ => hout site hsite⟩)⟩⟩

/-- A value that one place needs is anchored there. -/
theorem anchor_eq_of_sole_use {g : Graph} {id anchor site : NodeId} (h : anchorFor g id = .ok (some anchor))
    (hanchor : g.has anchor = true) (hsole : ∀ x ∈ g.useSites id, x = site) : anchor = site := by
  obtain ⟨-, hused, hchoice⟩ := anchorFor_eq_some h hanchor
  rcases hchoice with hall | hshared
  · obtain ⟨use, huse⟩ := List.exists_mem_of_ne_nil _ hused
    rw [← hall use huse, hsole use huse]
  · obtain ⟨other, hother, hne⟩ := hshared.several site
    exact absurd (hsole other hother) hne

end SeaOfNodes.Schedule
