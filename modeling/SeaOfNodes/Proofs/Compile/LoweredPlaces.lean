/-
  SeaOfNodes.Proofs.Compile.LoweredPlaces

  When a graph that can be scheduled still can be once it is lowered.  If every floating
  node has a home, a place that serves all its uses with no better one, then so have the
  conversions, and blocks stay parted.  So nothing but the beginning of a block is in the
  way: no addition may begin one, and its first node may read none that control does not
  leave.
-/
import SeaOfNodes.Proofs.Compile.LoweredSchedule
import SeaOfNodes.Proofs.Pass.LoweredHomes

namespace SeaOfNodes.Pass.Tagging

open SeaOfNodes.Graph SeaOfNodes.Schedule

/-- No handle is taken away. -/
theorem Lowers.size_le {g g' : Graph} (h : Lowers g g') : g.arena.size ≤ g'.arena.size := by
  refine h.keeps (fun s => g.arena.size ≤ s.arena.size) (fun {s s'} _ _ hstep hs => ?_) (Nat.le_refl _)
  have hsize : s.arena.size ≤ s'.arena.size := by
    cases hstep with
    | untag hsplice _ _ _ _ => exact hsplice.grows.size
    | tag hsplice _ _ _ _ => exact hsplice.grows.size
    | sequence hsequence _ _ _ _ _ _ _ => exact hsequence.nodes.grows.size
    | test hrename _ _ _ => exact Nat.le_of_lt (by rw [hrename.size]; exact Nat.lt_succ_self _)
    | add hrename _ _ _ => exact Nat.le_of_lt (by rw [hrename.size]; exact Nat.lt_succ_self _)
  exact Nat.le_trans hs hsize

end SeaOfNodes.Pass.Tagging

namespace SeaOfNodes.Compiler

open SeaOfNodes.Graph Schedule Listing Pass.Tagging

/-- A graph whose floating nodes have homes, with nothing for scheduling to guess: phis say
    where they need their operands, control does not return to a start, and it leaves an
    addition for one node at most. -/
structure Homely (g : Graph) (home : NodeId → NodeId) : Prop extends g.Unannotated where
  valued : g.Valued
  homes : Homes g [] home
  onward : ¬ Returns g
  resolved : g.PhisResolved
  sole : ∀ add, g.op add = .fixnumAdd → ∀ a ∈ g.controlSuccessors add, ∀ b ∈ g.controlSuccessors add, a = b

theorem harmless_of_addsApart {g : Graph} {home : NodeId → NodeId} (h : Homely g home) (hapart : AddsApart g) :
    Harmless g (g.find .fixnumAdd) := by
  have hop : ∀ add ∈ g.find .fixnumAdd, g.op add = .fixnumAdd := fun add hadd => (mem_find_iff (by decide)).1 hadd
  refine ⟨hop, fun add hadd => h.sole add (hop add hadd), fun add hadd => (hapart add (hop add hadd)).1,
    fun add hadd hfree => (hapart add (hop add hadd)).2 ?_⟩
  rw [← Bool.not_eq_true, h.consistent.hasControlOutput_iff]
  exact hfree

theorem fresh_of_run {g : Graph} {home : NodeId → NodeId} (h : Homely g home) (hsmall : g.arena.size < 2 ^ 63)
    (hrun : (Schedule.run g).failure? = none) : Fresh g := by
  obtain ⟨o, -, -, -, horder, -, -, -⟩ := run_phases hrun
  exact ⟨h.toUnannotated, h.valued, noneDangles_of_run hrun, h.onward, ⟨o, horder⟩, hsmall⟩

/-- Lowering keeps what scheduling asks for if no addition is in the way, and what listing
    asks of control if that is asked for. -/
theorem placeable_lowered {g : Graph} {home : NodeId → NodeId} (h : Homely g home)
    (hschedule : (Schedule.run g).failure? = none) {r : Pass.Change} (hlower : Pass.Tagging.run g = .ok r)
    (hsmall : r.graph.arena.size < 2 ^ 63) (hapart : AddsApart g) {listed : Prop}
    (hflowing : listed → Flowing g [] home ∧ NoneCritical g) :
    Fresh r.graph ∧ ∃ home', Placeable r.graph [] home' listed := by
  obtain ⟨hlowers, hconsistent, -⟩ := lowers_run h.consistent hlower
  have hfresh := fresh_of_run h (Nat.lt_of_le_of_lt hlowers.size_le hsmall) hschedule
  obtain ⟨hparted, hfirst⟩ := (run_of_homes hfresh h.homes).1 hschedule
  have hplaceable : Placeable g [] home listed :=
    ⟨h.homes, hfirst, hparted, h.onward, h.resolved, h.roles, hflowing⟩
  obtain ⟨home', hplaced⟩ := placeable_run h.consistent ⟨⟨home, hplaceable⟩, harmless_of_addsApart h hapart⟩ hlower
  have hkept := Pass.Tagging.keeps_run h.consistent hlower
  have hunannotated : r.graph.Unannotated :=
    ⟨hconsistent, hplaced.roles, hkept.length_find_start.trans h.oneStart, hkept.unset (by decide) h.unnumbered⟩
  obtain ⟨o, horder⟩ := hfresh.ordered
  have hordered := hlowers.orderFixed hconsistent
    (orderable_of_orderFixed h.consistent (fun id _ => h.unnumbered id) horder)
  exact ⟨⟨hunannotated, hkept.valued h.valued, hlowers.noneDangles_iff.2 hfresh.noneDangles, hplaced.onward, hordered,
    hsmall⟩, home', hplaced⟩

/-- A graph that can be scheduled still can be once it is lowered, exactly if its additions
    are apart from the beginnings of blocks. -/
theorem schedule_lowered_iff {g : Graph} {home : NodeId → NodeId} (h : Homely g home)
    (hschedule : (Schedule.run g).failure? = none) {r : Pass.Change} (hlower : Pass.Tagging.run g = .ok r)
    (hsmall : r.graph.arena.size < 2 ^ 63) : (Schedule.run r.graph).failure? = none ↔ AddsApart g := by
  refine ⟨addsApart_of_run h.consistent hlower, fun hapart => ?_⟩
  obtain ⟨hfresh, home', hplaced⟩ := placeable_lowered h hschedule hlower hsmall hapart False.elim
  exact (run_of_homes hfresh hplaced.homes).2 ⟨hplaced.parted, hplaced.firstsFree⟩

/-- The argument of a sum before a branch is at home with the sum, which the branch follows. -/
theorem homely_sumBeforeGraph : Homely sumBeforeGraph fun id => if id = 1 then 2 else id := by
  have hbuild : Description.build sumBefore = .ok sumBeforeGraph := by decide +kernel
  have hkey : ∀ n ∈ sumBefore.nodes, ∀ p ∈ n.props, p.1 ≠ Props.sequence := by decide +kernel
  have hlive : ∀ {id : NodeId} {op : Op}, sumBeforeGraph.op id = op → op ≠ .invalid → id ∈ sumBeforeGraph.ids :=
    fun hop hne => mem_ids.2 (has_of_op_ne_invalid (by rw [hop]; exact hne))
  have hfloats : ∀ {id : NodeId}, Floats sumBeforeGraph [] id → id = 1 := by
    have hall : ∀ id ∈ sumBeforeGraph.ids, sumBeforeGraph.isFixed id = false → id = 1 := by decide +kernel
    exact fun {id} hid => hall id (mem_ids.2 hid.live) hid.floating
  have hreads : ∀ {x y : NodeId}, sumBeforeGraph.isFixed x = true → y ∈ sumBeforeGraph.consumers x → x = 2 ∧ y = 4 := by
    have hall : ∀ x ∈ sumBeforeGraph.ids, sumBeforeGraph.isFixed x = true → ∀ y ∈ sumBeforeGraph.consumers x,
        x = 2 ∧ y = 4 := by decide +kernel
    exact fun {x y} hx hy => hall x (mem_ids.2 (has_of_isFixed hx)) hx y hy
  have hbranch : 3 ∈ sumBeforeGraph.controlSuccessors 2 := by decide +kernel
  have hshow : 4 ∈ sumBeforeGraph.controlSuccessors 3 := by decide +kernel
  refine ⟨unannotated_of_build hbuild hkey, (Description.valued_of_build hbuild).1.2, ⟨fun id hid => ?_, fun id hid => ?_,
    fun id hid => ?_, fun id hid c _ _ hserves => ?_, fun x y hx hy _ => ?_, fun _ => 0, fun x y hx hy hread => ?_⟩,
    ?_, ?_, ?_⟩
  · have hne : id ≠ 1 := by
      rintro rfl
      exact absurd hid (by decide +kernel)
    exact if_neg hne
  · rw [hfloats hid]
    decide +kernel
  · rw [hfloats hid]
    have hsites : ∀ site ∈ sumBeforeGraph.useSites 1, site = 2 ∨ site = 3 := by decide +kernel
    intro site hsite
    rcases hsites site hsite with rfl | rfl
    · exact .refl
    · exact .single hbranch
  · rw [hfloats hid] at hserves ⊢
    exact hserves 2 (by decide +kernel)
  · obtain ⟨rfl, rfl⟩ := hreads hx hy
    exact .tail (.single hbranch) hshow
  · rw [hfloats hx, hfloats hy] at hread
    exact absurd hread (by decide +kernel)
  · rintro ⟨id, hop, hpreds⟩
    have hall : ∀ id ∈ sumBeforeGraph.ids, sumBeforeGraph.op id = .start → sumBeforeGraph.controlPredecessors id = [] := by
      decide +kernel
    exact hpreds (hall id (hlive hop (by decide)) hop)
  · intro e _ _ hop
    have hall : ∀ id ∈ sumBeforeGraph.ids, sumBeforeGraph.op id ≠ .phi := by decide +kernel
    exact absurd hop (hall _ (hlive hop (by decide)))
  · intro add hop a ha b hb
    have hall : ∀ id ∈ sumBeforeGraph.ids, sumBeforeGraph.op id = .fixnumAdd →
        ∀ a ∈ sumBeforeGraph.controlSuccessors id, a = 3 := by decide +kernel
    have hnext := hall add (hlive hop (by decide)) hop
    rw [hnext a ha, hnext b hb]

end SeaOfNodes.Compiler
