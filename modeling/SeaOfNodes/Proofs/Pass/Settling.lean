/-
  SeaOfNodes.Proofs.Pass.Settling

  Rounds of passes settle.  Once lowering has run, a round either bypasses a phi, and no
  pass makes phis, or leaves every pass of the list idle.  So one round for lowering, one
  for each phi, one to leave everything idle and one that finds it so are enough.
-/
import SeaOfNodes.Proofs.Pass.Idle

namespace SeaOfNodes.Pass

open SeaOfNodes.Graph

/-! ## One round -/

/-- A list of passes that are idle does nothing. -/
theorem runAll_of_idle {passes : List Pass} {g : Graph} (hidle : ∀ p ∈ passes, Idle p g) :
    runAll passes g = ⟨g, passes.map fun p => ⟨p, 0, g.size⟩, none⟩ := by
  induction passes with
  | nil => rfl
  | cons p rest ih =>
      obtain ⟨hp, hrest⟩ := List.forall_mem_cons.1 hidle
      have hrun : p.run g = .ok ⟨g, 0⟩ := hp
      rw [runAll, hrun]
      simp only [ih hrest, List.map_cons]

theorem modified_cons (f : Finished) (r : Report) :
    Report.modified { r with finished := f :: r.finished } = (decide (0 < f.count) || r.modified) := by
  rw [Report.modified, Report.modified, List.any_cons]

/-- A round that ends and reports no change has found every pass idle. -/
theorem idle_of_not_modified {passes : List Pass} {g : Graph} (hends : (runAll passes g).failure? = none)
    (hquiet : (runAll passes g).modified = false) : (runAll passes g).graph = g ∧ ∀ p ∈ passes, Idle p g := by
  induction passes generalizing g with
  | nil => exact ⟨rfl, by simp⟩
  | cons p rest ih =>
      rw [runAll] at hends hquiet ⊢
      cases hrun : p.run g with
      | error cause =>
          rw [hrun] at hends
          cases hends
      | ok r =>
          rw [hrun] at hends hquiet
          dsimp only at hends hquiet ⊢
          rw [modified_cons, Bool.or_eq_false_iff, decide_eq_false_iff_not, Nat.not_lt, Nat.le_zero] at hquiet
          obtain ⟨hcount, hrest⟩ := hquiet
          obtain rfl := graph_eq_of_count hrun hcount
          obtain ⟨hgraph, hidle⟩ := ih hends hrest
          exact ⟨hgraph, List.forall_mem_cons.2 ⟨hrun, hidle⟩⟩

theorem consistent_runAll (passes : List Pass) {g : Graph} (hg : g.Consistent) : (runAll passes g).graph.Consistent :=
  (runAll_keeps (fun hs hrun => consistent_run hrun hs) passes hg).1

/-- The passes of a list have nothing to lower that they would lower. -/
def Quiet (passes : List Pass) (g : Graph) : Prop := .taggingLowering ∈ passes → Idle .taggingLowering g

/-- A round takes no phi in, and once it ends there is nothing left to lower. -/
theorem quiet_runAll (passes : List Pass) {g : Graph} (hg : g.Consistent) :
    (runAll passes g).graph.phiCount ≤ g.phiCount ∧
      ((runAll passes g).failure? = none → (Idle .taggingLowering g → Idle .taggingLowering (runAll passes g).graph) ∧
        Quiet passes (runAll passes g).graph) := by
  induction passes generalizing g with
  | nil => exact ⟨Nat.le_refl _, fun _ => ⟨id, fun hmem => absurd hmem List.not_mem_nil⟩⟩
  | cons p rest ih =>
      rw [runAll]
      cases hrun : p.run g with
      | error cause =>
          refine ⟨Nat.le_refl _, fun hends => ?_⟩
          cases hends
      | ok r =>
          obtain ⟨hphis, hlater⟩ := ih (consistent_run hrun hg)
          refine ⟨hphis.trans (phiCount_le_of_run hg hrun), fun hends => ?_⟩
          obtain ⟨hkept, hquiet⟩ := hlater hends
          refine ⟨fun hidle => hkept (.taggingLowering_after hg hrun (.inr hidle)), fun hmem => ?_⟩
          rcases List.mem_cons.1 hmem with rfl | hmem
          · exact hkept (.taggingLowering_after hg hrun (.inl rfl))
          · exact hquiet hmem

/-- Where there is nothing to lower a round ends.  It takes a phi away, or leaves every pass of the
    list idle and with them those that were. -/
theorem idle_or_phiCount_lt_of_runAll {passes : List Pass} {g : Graph} (hg : g.Consistent) (hquiet : Quiet passes g) :
    (runAll passes g).failure? = none ∧
      ((runAll passes g).graph.phiCount < g.phiCount ∨
        ((∀ p ∈ passes, Idle p (runAll passes g).graph) ∧ ∀ q, Idle q g → Idle q (runAll passes g).graph)) := by
  induction passes generalizing g with
  | nil => exact ⟨rfl, .inr ⟨by simp, fun _ hq => hq⟩⟩
  | cons p rest ih =>
      have hfirst : p = .taggingLowering → Idle .taggingLowering g := by
        rintro rfl
        exact hquiet List.mem_cons_self
      obtain ⟨r, hrun⟩ := exists_run hg p hfirst
      have hr := consistent_run hrun hg
      have hrest : Quiet rest r.graph := fun hmem =>
        .taggingLowering_after hg hrun (.inr (hquiet (List.mem_cons_of_mem p hmem)))
      obtain ⟨hends, hround⟩ := ih hr hrest
      have hle := phiCount_le_of_run hg hrun
      have hlater : (runAll rest r.graph).graph.phiCount ≤ r.graph.phiCount := (quiet_runAll rest hr).1
      rw [runAll, hrun]
      refine ⟨hends, ?_⟩
      dsimp only
      rcases idle_or_phiCount_lt hg hrun hfirst with hlt | ⟨hp, hkept⟩
      · left
        omega
      · rcases hround with hlt | ⟨hidle, hkeptLater⟩
        · left
          omega
        · right
          exact ⟨List.forall_mem_cons.2 ⟨hkeptLater p hp, hidle⟩, fun q hq => hkeptLater q (hkept q hq)⟩

/-! ## Rounds -/

/-- Rounds have come to their end: the last one found every pass idle. -/
structure Settled (passes : List Pass) (r : Rounds) : Prop where
  ends : r.failure? = none
  last : ∃ round, r.rounds.getLast? = some round ∧ round.modified = false
  idle : ∀ p ∈ passes, Idle p r.graph

theorem length_runRounds_le (passes : List Pass) (limit : Nat) (g : Graph) :
    (runRounds passes limit g).rounds.length ≤ limit := by
  induction limit generalizing g with
  | zero => exact Nat.le_refl 0
  | succ limit ih =>
      rw [runRounds]
      split
      · simp
      · exact Nat.succ_le_succ (ih _)

/-- A round fails or reports no change. -/
def Report.Stops (round : Report) : Prop := (round.failure?.isSome || !round.modified) = true

theorem Report.not_stops {round : Report} : ¬ round.Stops ↔ round.failure? = none ∧ round.modified = true := by
  simp [Report.Stops]

/-- A round that stops is the last, and what is left of the limit does not matter. -/
theorem runRounds_of_stops {passes : List Pass} {g : Graph} (h : (runAll passes g).Stops) (limit : Nat) :
    runRounds passes (limit + 1) g = ⟨(runAll passes g).graph, [runAll passes g]⟩ :=
  if_pos h

theorem runRounds_of_not_stops {passes : List Pass} {g : Graph} (h : ¬ (runAll passes g).Stops) (limit : Nat) :
    runRounds passes (limit + 1) g = ⟨(runRounds passes limit (runAll passes g).graph).graph,
      runAll passes g :: (runRounds passes limit (runAll passes g).graph).rounds⟩ :=
  if_neg h

theorem Settled.cons {passes : List Pass} {r : Rounds} (h : Settled passes r) (round : Report) :
    Settled passes ⟨r.graph, round :: r.rounds⟩ := by
  obtain ⟨last, hlast, hquiet⟩ := h.last
  have hlast' : (round :: r.rounds).getLast? = some last := by
    rw [List.getLast?_cons, hlast, Option.getD_some]
  refine ⟨?_, ⟨last, hlast', hquiet⟩, h.idle⟩
  have hends := h.ends
  rw [Rounds.failure?, hlast] at hends
  rw [Rounds.failure?, hlast']
  exact hends

/-- A graph on which all passes are idle takes one round to find it out. -/
theorem settled_of_idle {passes : List Pass} {g : Graph} (hidle : ∀ p ∈ passes, Idle p g) (limit : Nat) :
    (runRounds passes (limit + 1) g).rounds.length = 1 ∧ Settled passes (runRounds passes (limit + 1) g) := by
  have hround := runAll_of_idle hidle
  have hunmodified : (runAll passes g).modified = false := by
    rw [hround]
    simp [Report.modified]
  have hends : (runAll passes g).failure? = none := by rw [hround]
  have hgraph : (runAll passes g).graph = g := by rw [hround]
  have hstops : (runAll passes g).Stops := by simp [Report.Stops, hunmodified]
  rw [runRounds_of_stops hstops]
  refine ⟨rfl, hends, ⟨_, rfl, hunmodified⟩, ?_⟩
  rw [hgraph]
  exact hidle

/-- A round that stops without a failure has found them so. -/
theorem settled_of_stops {passes : List Pass} {g : Graph} (hends : (runAll passes g).failure? = none)
    (hstops : (runAll passes g).Stops) (limit : Nat) :
    (runRounds passes (limit + 1) g).rounds.length = 1 ∧ Settled passes (runRounds passes (limit + 1) g) := by
  have hunmodified : (runAll passes g).modified = false := by simpa [Report.Stops, hends] using hstops
  exact settled_of_idle (idle_of_not_modified hends hunmodified).2 limit

/-- Where there is nothing to lower two rounds more than there are phis suffice. -/
theorem settled_of_quiet {passes : List Pass} {g : Graph} (hg : g.Consistent) (hquiet : Quiet passes g) (limit : Nat) :
    (runRounds passes limit g).rounds.length ≤ g.phiCount + 2 ∧
      (g.phiCount + 2 ≤ limit → Settled passes (runRounds passes limit g)) := by
  induction limit generalizing g with
  | zero => exact ⟨Nat.zero_le _, fun h => absurd h (by omega)⟩
  | succ limit ih =>
      obtain ⟨hends, hround⟩ := idle_or_phiCount_lt_of_runAll hg hquiet
      by_cases hstops : (runAll passes g).Stops
      · obtain ⟨hlength, hsettled⟩ := settled_of_stops hends hstops limit
        exact ⟨by omega, fun _ => hsettled⟩
      · rw [runRounds_of_not_stops hstops, List.length_cons]
        rcases hround with hlt | ⟨hidle, -⟩
        · -- A phi is gone, and with it one of the rounds that may be left.
          have hnext := consistent_runAll passes hg
          obtain ⟨hlength, hsettled⟩ := ih hnext ((quiet_runAll passes hg).2 hends).2
          exact ⟨by omega, fun hlimit => (hsettled (by omega)).cons _⟩
        · -- The next round finds every pass idle, if there is one.
          cases limit with
          | zero => exact ⟨by simp [runRounds], fun h => absurd h (by omega)⟩
          | succ limit =>
              obtain ⟨hlength, hsettled⟩ := settled_of_idle hidle limit
              exact ⟨by omega, fun _ => hsettled.cons _⟩

/-- Lowering takes one round more, unless it fails. -/
theorem settled_of_runRounds (passes : List Pass) {g : Graph} (hg : g.Consistent) (limit : Nat) :
    (runRounds passes limit g).rounds.length ≤ g.phiCount + 3 ∧
      (g.phiCount + 3 ≤ limit → (runRounds passes limit g).failure? = none →
        Settled passes (runRounds passes limit g)) := by
  cases limit with
  | zero => exact ⟨Nat.zero_le _, fun h => absurd h (by omega)⟩
  | succ limit =>
      obtain ⟨hphis, hquiet⟩ := quiet_runAll passes hg
      by_cases hstops : (runAll passes g).Stops
      · rw [runRounds_of_stops hstops]
        refine ⟨by simp, fun _ hends => ?_⟩
        have hsettled := (settled_of_stops hends hstops limit).2
        rwa [runRounds_of_stops hstops] at hsettled
      · obtain ⟨hends, -⟩ := Report.not_stops.1 hstops
        obtain ⟨hlength, hsettled⟩ := settled_of_quiet (consistent_runAll passes hg) (hquiet hends).2 limit
        rw [runRounds_of_not_stops hstops, List.length_cons]
        exact ⟨by omega, fun hlimit _ => (hsettled (by omega)).cons _⟩

/-- Rounds that have found nothing to do within a limit are the same under every larger one. -/
theorem runRounds_of_le {passes : List Pass} {limit larger : Nat} {g : Graph} (hle : limit ≤ larger)
    (h : ∃ last, (runRounds passes limit g).rounds.getLast? = some last ∧ last.modified = false) :
    runRounds passes larger g = runRounds passes limit g := by
  induction limit generalizing larger g with
  | zero =>
      obtain ⟨last, hlast, -⟩ := h
      cases hlast
  | succ limit ih =>
      obtain ⟨larger, rfl⟩ : ∃ n, larger = n + 1 := ⟨larger - 1, by omega⟩
      by_cases hstops : (runAll passes g).Stops
      · rw [runRounds_of_stops hstops, runRounds_of_stops hstops]
      · rw [runRounds_of_not_stops hstops] at h ⊢
        rw [runRounds_of_not_stops hstops]
        obtain ⟨last, hlast, hunmodified⟩ := h
        have hlater : (runRounds passes limit (runAll passes g).graph).rounds.getLast? = some last := by
          cases hrounds : (runRounds passes limit (runAll passes g).graph).rounds with
          | nil =>
              -- The round that continues would be the last, but it reports a change.
              rw [hrounds, List.getLast?_singleton, Option.some.injEq] at hlast
              have hmodified := (Report.not_stops.1 hstops).2
              rw [hlast, hunmodified] at hmodified
              cases hmodified
          | cons next others =>
              rw [hrounds, List.getLast?_cons_cons] at hlast
              exact hlast
        rw [ih (by omega) ⟨last, hlater, hunmodified⟩]

/-- Rounds settle, and soon.  Whatever the limit is, no more rounds are run than three more than there
    are phis.  If the limit allows so many and no pass fails, the last round reports no change, every
    pass of the list has nothing left to do, and a larger limit changes nothing. -/
theorem fixpoint_settles {g : Graph} (hg : g.Consistent) (passes : List Pass) (limit : Int64) :
    ((fixpoint passes limit g).rounds.length : Int) ≤ max 0 (min limit.toInt ((g.find .phi).length + 3)) ∧
      ((g.find .phi).length + 3 ≤ limit.toInt → (fixpoint passes limit g).failure? = none →
        (∃ last, (fixpoint passes limit g).rounds.getLast? = some last ∧ last.modified = false) ∧
        (∀ p ∈ passes, ∃ again, p.run (fixpoint passes limit g).graph = .ok again ∧ again.modified = false ∧
          again.graph = (fixpoint passes limit g).graph) ∧
        ∀ larger : Int64, limit ≤ larger → (fixpoint passes larger g).graph = (fixpoint passes limit g).graph) := by
  obtain ⟨hlength, hsettled⟩ := settled_of_runRounds passes hg limit.toInt.toNat
  have hlimit := length_runRounds_le passes limit.toInt.toNat g
  have hphis : g.phiCount = (g.find .phi).length := rfl
  rw [fixpoint]
  refine ⟨by omega, fun henough hends => ?_⟩
  obtain ⟨-, hlast, hidle⟩ := hsettled (by omega) hends
  refine ⟨hlast, fun p hp => ⟨_, hidle p hp, rfl, rfl⟩, fun larger hle => ?_⟩
  have hnat : limit.toInt.toNat ≤ larger.toInt.toNat := Int.toNat_le_toNat (Int64.le_iff_toInt_le.1 hle)
  rw [fixpoint, runRounds_of_le hnat hlast]

/-- Of two phis the first reads the second, which reads an argument twice. -/
def chainedPhis : Graph :=
  Graph.assemble [.arg, .phi, .phi] [⟨2, 1, .valueN 0⟩, ⟨0, 1, .valueN 1⟩, ⟨0, 2, .valueN 0⟩, ⟨0, 2, .valueN 1⟩]

/-- The second phi goes in the first round and the first in the second, which leaves the argument
    unread; the third round removes it, and the fourth finds nothing to do. -/
theorem fixpoint_chainedPhis_settles :
    chainedPhis.Consistent ∧ (fixpoint [.deadCode, .noChoicePhis] 5 chainedPhis).rounds.length = 4 ∧
      (fixpoint [.deadCode, .noChoicePhis] 5 chainedPhis).failure? = none ∧
      (∀ p ∈ [Pass.deadCode, .noChoicePhis], ∃ again,
        p.run (fixpoint [.deadCode, .noChoicePhis] 5 chainedPhis).graph = .ok again ∧ again.modified = false ∧
          again.graph = (fixpoint [.deadCode, .noChoicePhis] 5 chainedPhis).graph) ∧
      ∀ larger : Int64, 5 ≤ larger → (fixpoint [.deadCode, .noChoicePhis] larger chainedPhis).graph
        = (fixpoint [.deadCode, .noChoicePhis] 5 chainedPhis).graph := by
  have hconsistent : chainedPhis.Consistent := consistent_assemble (by decide)
  have hlength : (fixpoint [.deadCode, .noChoicePhis] 5 chainedPhis).rounds.length = 4 := by decide +kernel
  have hends : (fixpoint [.deadCode, .noChoicePhis] 5 chainedPhis).failure? = none := by decide +kernel
  obtain ⟨-, hsettles⟩ := fixpoint_settles hconsistent [.deadCode, .noChoicePhis] 5
  obtain ⟨-, hidle, hlarger⟩ := hsettles (by decide +kernel) hends
  exact ⟨hconsistent, hlength, hends, hidle, hlarger⟩

end SeaOfNodes.Pass
