/-
  SeaOfNodes.Proofs.Compile.LoweredListing

  When a graph that compiles still does once it is lowered.  Where floating nodes have
  homes and no phi needs an operand at a branch, listing asks for nothing that lowering
  takes away: control flows as it did, conversions come to no block that is only a
  transfer, and branches and sends keep their operands.  So the lowered graph is listed
  whenever it can be scheduled, and that is decided by its additions.
-/
import SeaOfNodes.Proofs.Compile.LoweredPlaces
import SeaOfNodes.Proofs.Listing.HomeFlow
import SeaOfNodes.Proofs.Pass.LoweredOperable

namespace SeaOfNodes.Compiler

open SeaOfNodes.Graph Schedule Listing Pass.Tagging

/-- A graph that is scheduled and listed still is once it is lowered, exactly if its additions
    are apart from the beginnings of blocks. -/
theorem linearize_lowered_iff {g : Graph} {home : NodeId → NodeId} (h : Homely g home)
    (hunregistered : ∀ id, (g.props id).has Props.register = false) (hcritical : NoneCritical g)
    (hschedule : (Schedule.run g).failure? = none) {blocks : List Block}
    (hlist : (linearize (Schedule.run g).graph).result = .ok blocks) {r : Pass.Change}
    (hlower : Pass.Tagging.run g = .ok r) (hsmall : r.graph.arena.size < 2 ^ 63) :
    ((Schedule.run r.graph).failure? = none ∧
      ∃ lowered, (linearize (Schedule.run r.graph).graph).result = .ok lowered) ↔ AddsApart g := by
  refine ⟨fun hlowered => addsApart_of_run h.consistent hlower hlowered.1, fun hapart => ?_⟩
  obtain ⟨hlowers, -, -⟩ := lowers_run h.consistent hlower
  have hfresh := fresh_of_run h (Nat.lt_of_le_of_lt hlowers.size_le hsmall) hschedule
  obtain ⟨hflowing, hoperable⟩ := (linearize_run_iff hfresh h.homes hunregistered hschedule).1 ⟨blocks, hlist⟩
  obtain ⟨hfresh', home', hplaced⟩ := placeable_lowered h hschedule hlower hsmall hapart
    fun _ : True => ⟨hflowing, hcritical⟩
  have hrun := (run_of_homes hfresh' hplaced.homes).2 ⟨hplaced.parted, hplaced.firstsFree⟩
  have hkept := Pass.Tagging.keeps_run h.consistent hlower
  refine ⟨hrun, (linearize_run_iff hfresh' hplaced.homes (hkept.unset (by decide) hunregistered) hrun).2 ⟨?_, ?_⟩⟩
  · exact (hplaced.flowing trivial).1
  · exact operable_run h.consistent hlower hoperable

/-- The sum begins no block, and control leaves it, so its tag is in nobody's way. -/
theorem linearize_lowered_sumBefore :
    ∃ r, Pass.Tagging.run sumBeforeGraph = .ok r ∧ (Schedule.run r.graph).failure? = none ∧
      ∃ lowered, (linearize (Schedule.run r.graph).graph).result = .ok lowered := by
  have hbuild : Description.build sumBefore = .ok sumBeforeGraph := by decide +kernel
  have hunregistered : ∀ id, (sumBeforeGraph.props id).has Props.register = false :=
    Description.has_props_of_build hbuild (by decide +kernel)
  have hcritical : NoneCritical sumBeforeGraph := by
    intro e _ _ hop
    have hall : ∀ id ∈ sumBeforeGraph.ids, sumBeforeGraph.op id ≠ .phi := by decide +kernel
    exact absurd hop (hall _ (mem_ids.2 (has_of_op_ne_invalid (by rw [hop]; decide))))
  have hschedule : (Schedule.run sumBeforeGraph).failure? = none := by cbv
  have hlength : (linearize (Schedule.run sumBeforeGraph).graph).result.map List.length = .ok 3 := by cbv
  obtain ⟨blocks, hlist, -⟩ := map_eq_ok.1 hlength
  have hsize : (Pass.Tagging.run sumBeforeGraph).map (fun r => r.graph.arena.size) = .ok 11 := by cbv
  obtain ⟨r, hlower, hsize⟩ := map_eq_ok.1 hsize
  refine ⟨r, hlower, (linearize_lowered_iff homely_sumBeforeGraph hunregistered hcritical hschedule hlist hlower
    (by omega)).2 fun add hadd => ?_⟩
  have hall : ∀ id ∈ sumBeforeGraph.ids, sumBeforeGraph.op id = .fixnumAdd →
      sumBeforeGraph.beginsBlock id = false ∧ sumBeforeGraph.hasControlOutput id = true := by decide +kernel
  obtain ⟨hbegins, hleaves⟩ := hall add (mem_ids.2 (has_of_op_ne_invalid (by rw [hadd]; decide))) hadd
  exact ⟨hbegins, fun hfree => absurd (hleaves.symm.trans hfree) (by decide)⟩

end SeaOfNodes.Compiler
