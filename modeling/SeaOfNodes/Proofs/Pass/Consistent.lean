/-
  SeaOfNodes.Proofs.Pass.Consistent

  Passes keep graphs consistent.  A pass changes a graph by operations that each
  keep it consistent, so any list of passes does, run once or round after round.
-/
import SeaOfNodes.Compile
import SeaOfNodes.Proofs.Except
import SeaOfNodes.Proofs.Graph.Surgery

namespace SeaOfNodes.Pass

open SeaOfNodes.Graph

/-! ## One pass -/

/-- What every round keeps of the graph and the count the sweep keeps. -/
theorem DeadCode.sweep_keeps_count (holds : Graph → Nat → Prop)
    (hround : ∀ {s swept : Graph} {n : Nat}, holds s n → s.deadNodes.foldlM Graph.remove s = .ok swept →
      holds swept (n + s.deadNodes.length))
    {rounds removed : Nat} {g : Graph} {r : Change} (h : sweep rounds g removed = .ok r) (hg : holds g removed) :
    holds r.graph r.count := by
  induction rounds generalizing g removed with
  | zero =>
      cases h
      exact hg
  | succ rounds ih =>
      rw [sweep] at h
      split at h
      · cases h
        exact hg
      · obtain ⟨swept, hswept, hrest⟩ := bind_eq_ok.1 h
        exact ih hrest (hround hg hswept)

theorem DeadCode.sweep_keeps {holds : Graph → Prop}
    (hround : ∀ {s swept : Graph}, holds s → s.deadNodes.foldlM Graph.remove s = .ok swept → holds swept)
    {rounds removed : Nat} {g : Graph} {r : Change} (h : sweep rounds g removed = .ok r) (hg : holds g) :
    holds r.graph :=
  sweep_keeps_count (fun s _ => holds s) (fun hs hswept => hround hs hswept) h hg

theorem DeadCode.consistent_sweep {rounds removed : Nat} {g : Graph} {r : Change}
    (h : sweep rounds g removed = .ok r) (hg : g.Consistent) : r.graph.Consistent := by
  refine sweep_keeps (fun hs hswept => ?_) h hg
  exact foldlM_keeps Consistent (fun _ _ _ hb hremove => hb.remove hremove) hswept hs

/-- A visit leaves a phi that has a choice; one that has none is bypassed, removed and
    counted. -/
theorem NoChoice.visit_eq_ok {r r' : Change} {phi : NodeId} (h : visit r phi = .ok r') :
    (r.graph.soleChoice? phi = none ∧ r' = r) ∨
      ∃ source forwarded, r.graph.soleChoice? phi = some source ∧
        r.graph.replaceUses phi source = .ok forwarded ∧ forwarded.remove phi = .ok r'.graph ∧
        r'.count = r.count + 1 := by
  rw [visit] at h
  cases hchoice : r.graph.soleChoice? phi with
  | none =>
      rw [hchoice] at h
      cases h
      exact .inl ⟨rfl, rfl⟩
  | some source =>
      rw [hchoice] at h
      obtain ⟨forwarded, hforwarded, h⟩ := bind_eq_ok.1 h
      obtain ⟨removed, hremoved, h⟩ := bind_eq_ok.1 h
      cases h
      exact .inr ⟨source, forwarded, rfl, hforwarded, hremoved, rfl⟩

theorem NoChoice.consistent_visit {r r' : Change} {phi : NodeId} (h : visit r phi = .ok r')
    (hr : r.graph.Consistent) : r'.graph.Consistent := by
  rcases visit_eq_ok h with ⟨-, rfl⟩ | ⟨source, forwarded, -, hforwarded, hremoved, -⟩
  · exact hr
  · exact (hr.replaceUses hforwarded).remove hremoved

theorem NoChoice.consistent_run {g : Graph} {r : Change} (h : NoChoice.run g = .ok r) (hg : g.Consistent) :
    r.graph.Consistent :=
  foldlM_keeps (fun r : Change => r.graph.Consistent) (fun _ _ _ hbefore hvisit => consistent_visit hvisit hbefore)
    h hg

namespace Tagging

theorem consistent_convert {op : Op} {g : Graph} {e : Edge} {r : NodeId × Graph}
    (h : convert op g e = .ok r) (hg : g.Consistent) : r.2.Consistent := by
  obtain ⟨spliced, hspliced, hr⟩ := bind_eq_ok.1 h
  cases hr
  exact (hg.addNode op .empty).interdict hspliced

theorem consistent_sequenceTag {add next tag : NodeId} {g g' : Graph}
    (h : sequenceTag add next g tag = .ok g') (hg : g.Consistent) : g'.Consistent := by
  obtain ⟨joined, hjoined, hnext⟩ := bind_eq_ok.1 h
  exact (hg.connect hjoined).connect hnext

theorem consistent_lowerTest {g g' : Graph} {id : NodeId} (h : lowerTest g id = .ok g') (hg : g.Consistent) :
    g'.Consistent :=
  (hg.addNode .isTaggedFixnum (carriedProps g id)).replace h

theorem consistent_lowerAdd {g g' : Graph} {add : NodeId} (h : lowerAdd g add = .ok g') (hg : g.Consistent) :
    g'.Consistent := by
  rw [lowerAdd] at h
  obtain ⟨untagged, huntagged, h⟩ := bind_eq_ok.1 h
  obtain ⟨⟨tags, tagged⟩, htagged, h⟩ := bind_eq_ok.1 h
  have hu : untagged.Consistent := by
    refine foldlM_keeps Consistent (fun b e b' hb hstep => ?_) huntagged hg
    obtain ⟨r, hr, hb'⟩ := bind_eq_ok.1 hstep
    cases hb'
    exact consistent_convert hr hb
  have ht : tagged.Consistent := by
    refine foldlM_keeps (fun state : List NodeId × Graph => state.2.Consistent) (fun b e b' hb hstep => ?_)
      htagged hu
    obtain ⟨r, hr, hb'⟩ := bind_eq_ok.1 hstep
    cases hb'
    exact consistent_convert hr hb
  have hlast : ∀ {sequenced : Graph}, sequenced.Consistent →
      (sequenced.addNode .int64Add (carriedProps sequenced add)).2.replace add
        (sequenced.addNode .int64Add (carriedProps sequenced add)).1 = .ok g' → g'.Consistent :=
    fun hs hreplace => (hs.addNode .int64Add _).replace hreplace
  dsimp only at h
  split at h
  · exact hlast ht h
  · obtain ⟨sequenced, hsequenced, h⟩ := bind_eq_ok.1 h
    refine hlast ?_ h
    exact foldlM_keeps Consistent (fun _ _ _ hb hstep => consistent_sequenceTag hstep hb) hsequenced ht

/-- A run checks every addition, lowers the tests and then the additions, and counts them. -/
theorem run_eq_ok {g : Graph} {r : Change} (h : Tagging.run g = .ok r) :
    (∀ add ∈ g.find .fixnumAdd, check g add = .ok ()) ∧
      ∃ tested, ((g.find .kindIs).filter (isFixnumTest g)).foldlM lowerTest g = .ok tested ∧
        (g.find .fixnumAdd).foldlM lowerAdd tested = .ok r.graph ∧
        r.count = ((g.find .kindIs).filter (isFixnumTest g)).length + (g.find .fixnumAdd).length := by
  obtain ⟨_, hchecks, h⟩ := bind_eq_ok.1 h
  cases hlower : lower g with
  | error cause => simp [hlower, throw, throwThe, MonadExceptOf.throw] at h
  | ok lowered =>
      simp only [hlower, pure_eq_ok] at h
      subst h
      obtain ⟨tested, htested, hlower⟩ := bind_eq_ok.1 hlower
      obtain ⟨added, hadded, hlower⟩ := bind_eq_ok.1 hlower
      cases hlower
      exact ⟨forM_eq_ok.1 hchecks, tested, htested, hadded, rfl⟩

theorem consistent_run {g : Graph} {r : Change} (h : Tagging.run g = .ok r) (hg : g.Consistent) :
    r.graph.Consistent := by
  obtain ⟨-, tested, htested, hadded, -⟩ := run_eq_ok h
  have ht := foldlM_keeps Consistent (fun _ _ _ hb hstep => consistent_lowerTest hstep hb) htested hg
  exact foldlM_keeps Consistent (fun _ _ _ hb hstep => consistent_lowerAdd hstep hb) hadded ht

end Tagging

theorem consistent_run {p : Pass} {g : Graph} {r : Change} (h : p.run g = .ok r) (hg : g.Consistent) :
    r.graph.Consistent := by
  cases p with
  | deadCode => exact DeadCode.consistent_sweep (mapError_eq_ok.1 h) hg
  | noChoicePhis => exact NoChoice.consistent_run (mapError_eq_ok.1 h) hg
  | taggingLowering => exact Tagging.consistent_run h hg

/-! ## Lists of passes -/

section Keeps

variable {holds : Graph → Prop}
  (hstep : ∀ {p : Pass} {g : Graph} {r : Change}, holds g → p.run g = .ok r → holds r.graph)
include hstep

/-- What every pass keeps a list of passes keeps, and it holds where one fails. -/
theorem runAll_keeps (passes : List Pass) {g : Graph} (hg : holds g) :
    holds (runAll passes g).graph ∧
      ∀ f, (runAll passes g).failure? = some f → ∃ s, holds s ∧ f.pass.run s = .error f.cause := by
  induction passes generalizing g with
  | nil => exact ⟨hg, fun f hf => nomatch hf⟩
  | cons p rest ih =>
      rw [runAll]
      split
      · rename_i cause hfails
        refine ⟨hg, fun f hf => ⟨g, hg, ?_⟩⟩
        cases hf
        exact hfails
      · rename_i r hr
        exact ih (hstep hg hr)

/-- Rounds keep it too; the one that fails is the last. -/
theorem runRounds_keeps (passes : List Pass) (limit : Nat) {g : Graph} (hg : holds g) :
    holds (runRounds passes limit g).graph ∧
      ∀ f, (runRounds passes limit g).failure? = some f → ∃ s, holds s ∧ f.pass.run s = .error f.cause := by
  induction limit generalizing g with
  | zero => exact ⟨hg, fun f hf => nomatch hf⟩
  | succ limit ih =>
      obtain ⟨hround, hfailure⟩ := runAll_keeps hstep passes hg
      rw [runRounds]
      split
      · exact ⟨hround, hfailure⟩
      · rename_i hgoesOn
        obtain ⟨hlater, hlaterFailure⟩ := ih hround
        refine ⟨hlater, fun f hf => ?_⟩
        cases hrounds : (runRounds passes limit (runAll passes g).graph).rounds with
        | nil =>
            -- The limit is reached: this round is the last, and it did not fail.
            simp only [Rounds.failure?, hrounds, List.getLast?_singleton, Option.bind_some] at hf
            simp [hf] at hgoesOn
        | cons next others =>
            refine hlaterFailure f ?_
            simpa [Rounds.failure?, hrounds] using hf

/-- However often a compiler runs its passes: what each of them keeps holds in the end, and it
    holds where one fails. -/
theorem runPasses_keeps (c : Compiler) {g : Graph} (hg : holds g) :
    holds (c.runPasses g).graph ∧ ∀ cause, (c.runPasses g).error? = some cause →
      ∃ (f : Failure) (s : Graph), holds s ∧ f.pass.run s = .error f.cause ∧
        (cause = .pass f ∨ ∃ n, cause = .round n f) := by
  rw [Compiler.runPasses]
  split
  · obtain ⟨hkept, hfailure⟩ := runRounds_keeps hstep c.passes c.limit.toInt.toNat hg
    refine ⟨hkept, fun cause hcause => ?_⟩
    obtain ⟨f, hf, rfl⟩ := Option.map_eq_some_iff.1 hcause
    obtain ⟨s, hs, hfails⟩ := hfailure f hf
    exact ⟨f, s, hs, hfails, .inr ⟨_, rfl⟩⟩
  · obtain ⟨hkept, hfailure⟩ := runAll_keeps hstep c.passes hg
    refine ⟨hkept, fun cause hcause => ?_⟩
    obtain ⟨f, hf, rfl⟩ := Option.map_eq_some_iff.1 hcause
    obtain ⟨s, hs, hfails⟩ := hfailure f hf
    exact ⟨f, s, hs, hfails, .inl rfl⟩

end Keeps

/-- Whatever passes a compiler runs, and however often, they leave a consistent
    graph. -/
theorem consistent_runPasses (c : Compiler) {g : Graph} (hg : g.Consistent) :
    (c.runPasses g).graph.Consistent :=
  (runPasses_keeps (fun hs hrun => consistent_run hrun hs) c hg).1

end SeaOfNodes.Pass
