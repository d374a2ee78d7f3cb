/-
  SeaOfNodes.Proofs.Compile.Guarantees

  What a description is checked for holds of every graph that passes make of it: edges are
  stored at both ends, there is one start, no edge is part of a schedule, and values are
  read off nodes that have one.  Since numbering reaches every node with a value, no
  instruction then lacks a register.
-/
import SeaOfNodes.Proofs.Compile.Causes
import SeaOfNodes.Proofs.Compile.LoweredSchedule

namespace SeaOfNodes

/-! ## Graphs as they are built -/

/-- What building a graph guarantees. -/
structure Graph.WellBuilt (g : Graph) : Prop where
  consistent : g.Consistent
  oneStart : (g.find .start).length = 1
  /-- Every edge carries control or a value. -/
  roles : g.Unscheduled
  valued : g.Valued

namespace Graph.WellBuilt

theorem of_build {spec : Description.GraphSpec} {g : Graph} (h : Description.build spec = .ok g) : g.WellBuilt := by
  obtain ⟨⟨hroles, hvalued⟩, hstart⟩ := Description.valued_of_build h
  exact ⟨Description.consistent_of_build h, hstart, hroles, hvalued⟩

theorem of_run {p : Pass} {g : Graph} {r : Pass.Change} (hg : g.WellBuilt) (h : p.run g = .ok r) :
    r.graph.WellBuilt := by
  have hkept := Pass.keeps_run hg.consistent h
  refine ⟨Pass.consistent_run h hg.consistent, ?_, hkept.roles hg.roles, hkept.valued hg.valued⟩
  rw [hkept.length_find_start]
  exact hg.oneStart

theorem isSchedule_eq_false {g : Graph} (h : g.WellBuilt) (id : NodeId) :
    ∀ e ∈ g.inputs id ++ g.outputs id, e.role.isSchedule = false := by
  intro e he
  have hpos : 0 < g.multiplicity e := by
    rcases List.mem_append.1 he with he | he
    · exact multiplicity_pos.2 (h.consistent.mem_outputs he)
    · rw [multiplicity_pos, h.consistent.source_eq id e he]
      exact he
  have hunscheduled : unscheduled e.role = true := by
    rcases h.roles e hpos with hcontrol | hvalue
    · exact unscheduled_of_isControl hcontrol
    · exact unscheduled_of_isValue hvalue
  simpa [unscheduled] using hunscheduled

end Graph.WellBuilt

/-! ## Registers -/

namespace Listing

open Schedule

/-- Where no node came with a register every value gets one, so none is missed. -/
theorem ne_missingRegister {s : Graph} {order : NodeId → List NodeId} (hs : Scheduled s order)
    (hfresh : ∀ id, (s.props id).has Props.register = false)
    (hvalued : ∀ id, ∀ e ∈ s.inputs id, e.role.isValue = true → s.producesValue e.source = true) (label : Label) :
    (linearize s).result ≠ .error (.badOperand (.noDestination label)) ∧
      (linearize s).result ≠ .error (.badOperand (.noRegister label)) := by
  have hfounded := linearize_founded hs
  rw [linearize] at hfounded ⊢
  cases hcase : plan s with
  | error cause =>
      -- Without a plan no instruction was emitted that could miss a register.
      have hearly := (plan_failsOnly hs cause hcase).2
      refine ⟨fun hfails => ?_, fun hfails => ?_⟩
      · exact hearly _ (Except.error.inj hfails)
      · exact hearly _ (Except.error.inj hfails)
  | ok planned =>
      obtain ⟨chains, layout⟩ := planned
      rw [hcase] at hfounded
      have hplanned := planned_of_plan hs hcase
      have hcovers := covers_of_plan hs.consistent hcase
      have hagree := agree_assignRegisters s chains
      have hnumbered : ∀ id, s.has id = true → s.producesValue id = true →
          ((assignRegisters s chains).props id).int? Props.register ≠ none := by
        intro id hid hvalue
        rw [hplanned.props_assignRegisters hs hfresh, if_pos ⟨(hcovers.mem_iff id).2 hid, hvalue⟩, Props.int?,
          Props.get?_set_self]
        exact Option.some_ne_none _
      refine ⟨fun hfails => ?_, fun hfails => ?_⟩
      · obtain ⟨id, hid, hvalue, -, hnone⟩ := hfounded _ hfails
        rw [hagree.has] at hid
        rw [Graph.producesValue, hagree.op] at hvalue
        exact hnumbered id hid hvalue hnone
      · obtain ⟨id, e, he, hrole, -, hnone⟩ := hfounded _ hfails
        rw [hagree.inputs_eq] at he
        exact hnumbered e.source (hs.consistent.has_source he) (hvalued id e he hrole) hnone

end Listing

namespace Compiler

theorem makes_runPasses (c : Compiler) (g : Graph) : Makes g (c.runPasses g).graph :=
  (Pass.runPasses_keeps (fun hs hrun => hs.tail ⟨_, _, hrun, rfl⟩) c .refl).1

theorem keeps_of_makes {g s : Graph} (hg : g.WellBuilt) (h : Makes g s) : s.WellBuilt ∧ g.Keeps s := by
  induction h with
  | refl => exact ⟨hg, .refl g⟩
  | tail _ hstep ih =>
      obtain ⟨p, r, hrun, rfl⟩ := hstep
      exact ⟨ih.1.of_run hrun, ih.2.trans (Pass.keeps_run ih.1.consistent hrun)⟩

/-- Whatever passes run, and however often, the outcome is as well built as the graph of the
    description, and no pass gives a node a register.  So unless a node came with one, no
    scheduled graph fails to have a listing for want of a register. -/
theorem wellBuilt_of_makes (spec : Description.GraphSpec) (g : Graph) (hbuild : Description.build spec = .ok g)
    (s : Graph) (hmakes : Makes g s) :
    s.WellBuilt ∧ (∀ id, ∀ e ∈ s.inputs id ++ s.outputs id, e.role.isSchedule = false) ∧
      ((∀ id, (g.props id).has Props.register = false) → ∀ id, (s.props id).has Props.register = false) ∧
      ((∀ id, (s.props id).has Props.register = false) → (Schedule.run s).failure? = none → ∀ label,
        (Listing.linearize (Schedule.run s).graph).result ≠ .error (.badOperand (.noDestination label)) ∧
        (Listing.linearize (Schedule.run s).graph).result ≠ .error (.badOperand (.noRegister label))) := by
  obtain ⟨hs, hkept⟩ := keeps_of_makes (.of_build hbuild) hmakes
  refine ⟨hs, hs.isSchedule_eq_false, hkept.unset (by decide), fun hfresh hrun label => ?_⟩
  obtain ⟨hprogram, order, hscheduled⟩ := Schedule.scheduled_of_run hs.consistent hrun
  refine Listing.ne_missingRegister hscheduled (fun id => ?_) (fun id e he hrole => ?_) label
  · rw [Props.has, Schedule.get?_props_run hrun (by decide)]
    exact hfresh id
  · have he := (hprogram.mem_inputs_iff (Graph.unscheduled_of_isValue hrole)).1 he
    rw [Graph.producesValue, hprogram.op]
    exact hs.valued e (Graph.multiplicity_pos.2 (hs.consistent.mem_outputs he)) hrole

/-- The sum before a branch, lowered and swept: the new nodes have values, and all of them
    get registers. -/
theorem wellBuilt_sumBefore :
    Description.build sumBefore = .ok sumBeforeGraph ∧
      ∃ s, Makes sumBeforeGraph s ∧ s.op 10 = .int64Add ∧ s.WellBuilt ∧
        (∀ id, (sumBeforeGraph.props id).has Props.register = false) ∧
        (∀ id, (s.props id).has Props.register = false) ∧ (Schedule.run s).failure? = none ∧
        ∀ label, (Listing.linearize (Schedule.run s).graph).result ≠ .error (.badOperand (.noDestination label)) ∧
          (Listing.linearize (Schedule.run s).graph).result ≠ .error (.badOperand (.noRegister label)) := by
  have hbuild : Description.build sumBefore = .ok sumBeforeGraph := by decide +kernel
  have hfresh : ∀ id, (sumBeforeGraph.props id).has Props.register = false :=
    Description.has_props_of_build hbuild (by decide)
  have hmakes := makes_runPasses ⟨[.taggingLowering, .deadCode], false, 8⟩ sumBeforeGraph
  have hop : (runPasses ⟨[.taggingLowering, .deadCode], false, 8⟩ sumBeforeGraph).graph.op 10
      = .int64Add := by decide +kernel
  have hrun : (Schedule.run (runPasses ⟨[.taggingLowering, .deadCode], false, 8⟩
      sumBeforeGraph).graph).failure? = none := by cbv
  obtain ⟨hs, -, hkept, hnever⟩ := wellBuilt_of_makes sumBefore sumBeforeGraph hbuild _ hmakes
  have hunset := hkept hfresh
  exact ⟨hbuild, _, hmakes, hop, hs, hfresh, hunset, hrun, hnever hunset hrun⟩

end Compiler

end SeaOfNodes
