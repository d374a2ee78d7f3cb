/-
  SeaOfNodes.Proofs.Listing.HomeFlow

  The listing of a graph whose floating nodes have homes.  What the blocks of the schedule
  are is decided by control and homes, so whether the graph is listed can be told before
  it is scheduled: control has to flow, and branches and sends need their operands.
-/
import SeaOfNodes.Proofs.Listing.Flow

namespace SeaOfNodes.Listing

open SeaOfNodes.Graph Schedule

theorem isFixed_of_mem_blockFirsts {g : Graph} {first : NodeId} (h : first ∈ blockFirsts g) : g.isFixed first = true :=
  isFixed_of_beginsBlock (mem_blockFirsts.1 h).2

/-- A scheduled graph with the blocks that control and homes make of the graph it was. -/
structure Seated (g : Graph) (home : NodeId → NodeId) (s : Graph) : Prop where
  consistent : g.Consistent
  roles : g.Unscheduled
  homes : Homes g [] home
  program : SameProgram g s
  inBlock_iff : ∀ {first x : NodeId}, g.isFixed first = true → (InBlock s first x ↔
    (g.isFixed x = true ∧ InBlock g first x) ∨ (Floats g [] x ∧ Holds g first (home x)))

namespace Seated

variable {g s : Graph} {home : NodeId → NodeId} (h : Seated g home s)
include h

theorem isOtherMerge_eq (first id : NodeId) : isOtherMerge s first id = isOtherMerge g first id := by
  rw [isOtherMerge, isOtherMerge, h.program.op]

theorem blockFirsts_eq : blockFirsts s = blockFirsts g := h.program.filter_beginsBlock

/-- A fixed node is in the block that control brings it to. -/
theorem inBlock_iff_of_isFixed {first id : NodeId} (hfirst : g.isFixed first = true) (hid : g.isFixed id = true) :
    InBlock s first id ↔ InBlock g first id := by
  rw [h.inBlock_iff hfirst]
  refine ⟨fun hin => ?_, fun hin => .inl ⟨hid, hin⟩⟩
  rcases hin with ⟨-, hin⟩ | ⟨hfloats, -⟩
  · exact hin
  · rw [hfloats.floating] at hid
    cases hid

theorem holds_iff_of_isFixed {first id : NodeId} (hfirst : g.isFixed first = true) (hid : g.isFixed id = true) :
    Holds s first id ↔ Holds g first id := by
  rw [Holds, Holds, h.inBlock_iff_of_isFixed hfirst hid, h.isOtherMerge_eq]

theorem joins_iff {first merge : NodeId} {e : Edge} (hmerge : g.isFixed merge = true) :
    Joins s first merge e ↔ Joins g first merge e := by
  have hentries : s.inputsWhere merge Role.isControl = g.inputsWhere merge Role.isControl :=
    h.program.inputsWhere_of_le (fun _ => unscheduled_of_isControl) merge
  have hfixed : ∀ x ∈ g.inputsWhere merge Role.isControl, g.isFixed x.source = true := fun x hx =>
    isFixed_of_hasControlSuccessor (h.consistent.mem_controlPredecessors.1 (List.mem_map_of_mem hx))
  constructor
  · rintro ⟨hbegins, hinto, hother, hholds, before, after, hsplit, hearliest⟩
    rw [h.blockFirsts_eq] at hbegins
    rw [hentries] at hsplit
    have hfirst := isFixed_of_mem_blockFirsts hbegins
    refine ⟨hbegins, (h.inBlock_iff_of_isFixed hfirst hmerge).1 hinto, h.isOtherMerge_eq first merge ▸ hother,
      (h.holds_iff_of_isFixed hfirst (hfixed e (by simp [hsplit]))).1 hholds, before, after, hsplit, fun x hx => ?_⟩
    rw [← h.holds_iff_of_isFixed hfirst (hfixed x (by simp [hsplit, hx]))]
    exact hearliest x hx
  · rintro ⟨hbegins, hinto, hother, hholds, before, after, hsplit, hearliest⟩
    have hfirst := isFixed_of_mem_blockFirsts hbegins
    refine ⟨h.blockFirsts_eq ▸ hbegins, (h.inBlock_iff_of_isFixed hfirst hmerge).2 hinto,
      (h.isOtherMerge_eq first merge).trans hother,
      (h.holds_iff_of_isFixed hfirst (hfixed e (by simp [hsplit]))).2 hholds, before, after, hentries.trans hsplit,
      fun x hx => ?_⟩
    rw [h.holds_iff_of_isFixed hfirst (hfixed x (by simp [hsplit, hx]))]
    exact hearliest x hx

/-- The same blocks feed a phi. -/
theorem fed_iff {id : NodeId} : Fed s id ↔ Fed g id := by
  have hvalue : ∀ role : Role, decide (role.name = .value) = true → unscheduled role = true := fun role hrole =>
    unscheduled_of_isValue (by rw [Role.isValue, of_decide_eq_true hrole]; rfl)
  unfold Fed
  rw [h.program.phiMerge?, inputsNamed, h.program.inputsWhere_of_le hvalue, ← inputsNamed]
  refine exists_congr fun merge => and_congr_right fun hmerge => forall₂_congr fun e _ => ?_
  have hfixed : g.isFixed merge = true := by
    have hop : g.op merge = .merge := by simpa using List.find?_some hmerge
    exact isFixed_of_op (by rw [hop]; rfl)
  refine exists_congr fun n => exists_congr fun first => exists_congr fun x => ?_
  rw [h.joins_iff hfixed]

theorem endsBlock_eq (first id : NodeId) : endsBlock s first id = endsBlock g first id := by
  rw [endsBlock, endsBlock, h.isOtherMerge_eq, h.program.op]

/-- The blocks of a graph that is listed flow. -/
theorem flowing (hl : Listable s) : Flowing g [] home := by
  refine ⟨fun id hid => ?_, ?_, fun first hfirst => ?_, fun id hid => ?_⟩
  · obtain ⟨first, hfirst, hin⟩ := hl.covered id (by rw [h.program.has]; exact has_of_isFixed hid)
    rw [h.blockFirsts_eq] at hfirst
    exact ⟨first, hfirst, (h.inBlock_iff_of_isFixed (isFixed_of_mem_blockFirsts hfirst) hid).1 hin⟩
  · obtain ⟨id, hid⟩ := hl.returns
    exact ⟨id, by rw [← h.program.op, hid]⟩
  · have hfixed := isFixed_of_mem_blockFirsts hfirst
    obtain ⟨id, hin, hends, hsole⟩ := hl.left first (h.blockFirsts_eq ▸ hfirst)
    rw [h.endsBlock_eq] at hends
    by_cases hne : id = first
    · refine .inr ⟨?_, fun x hx => ?_, fun x hx hhome => ?_⟩
      · simpa [endsBlock, hne, isOtherMerge_self] using hends
      · by_contra hother
        have hxFixed := isFixed_of_inBlock h.consistent h.roles hx hother
        exact hother (hsole hne x ((h.inBlock_iff_of_isFixed hfixed hxFixed).2 hx))
      · have hx' : InBlock s first x := (h.inBlock_iff hfixed).2 (.inr ⟨hx, hhome ▸ .refl, hhome ▸ isOtherMerge_self g _⟩)
        rw [← hsole hne x hx', hx.floating] at hfixed
        cases hfixed
    · exact .inl ⟨id, hne, (h.inBlock_iff_of_isFixed hfixed (isFixed_of_endsBlock hends)).1 hin, hends⟩
  · exact h.fed_iff.1 (hl.fed id (by rw [h.program.op, hid]))

/-- A graph whose blocks flow can be listed if its instructions have their operands. -/
theorem listable (hf : Flowing g [] home) (hoperable : ∀ id, Operable s id) : Listable s := by
  refine ⟨fun id hid => ?_, ?_, fun first hfirst => ?_, fun id hid => ?_, hoperable⟩
  · rw [h.program.has] at hid
    rw [h.blockFirsts_eq]
    cases hfixed : g.isFixed id with
    | true =>
        obtain ⟨first, hfirst, hin⟩ := hf.covered id hfixed
        exact ⟨first, hfirst, (h.inBlock_iff_of_isFixed (isFixed_of_mem_blockFirsts hfirst) hfixed).2 hin⟩
    | false =>
        have hfloats : Floats g [] id := ⟨hid, hfixed, List.not_mem_nil⟩
        obtain ⟨first, hfirst, hin⟩ := hf.covered (home id) (h.homes.place id hfloats).1
        cases hown : isOtherMerge g first (home id) with
        | false =>
            have hfixedFirst := isFixed_of_mem_blockFirsts hfirst
            exact ⟨first, hfirst, (h.inBlock_iff hfixedFirst).2 (.inr ⟨hfloats, hin, hown⟩)⟩
        | true =>
            -- A merge that does not belong to the block begins its own.
            have hop : g.op (home id) = .merge := by
              simp only [isOtherMerge, Bool.and_eq_true, decide_eq_true_eq] at hown
              exact hown.2
            have hself : home id ∈ blockFirsts g := mem_blockFirsts.2
              ⟨has_of_op_ne_invalid (by rw [hop]; decide), by simp [beginsBlock, hop]⟩
            exact ⟨home id, hself,
              (h.inBlock_iff (isFixed_of_mem_blockFirsts hself)).2 (.inr ⟨hfloats, .refl, isOtherMerge_self g _⟩)⟩
  · obtain ⟨id, hid⟩ := hf.returns
    exact ⟨id, by rw [h.program.op, hid]⟩
  · rw [h.blockFirsts_eq] at hfirst
    have hfixed := isFixed_of_mem_blockFirsts hfirst
    rcases hf.closed first hfirst with ⟨id, hne, hin, hends⟩ | ⟨hleaves, hsole, hbare⟩
    · exact ⟨id, (h.inBlock_iff_of_isFixed hfixed (isFixed_of_endsBlock hends)).2 hin, by rw [h.endsBlock_eq, hends],
        fun heq => absurd heq hne⟩
    · refine ⟨first, .refl, ?_, fun _ x hx => ?_⟩
      · rw [h.endsBlock_eq]
        simpa [endsBlock, isOtherMerge_self] using hleaves
      · rcases (h.inBlock_iff hfixed).1 hx with ⟨-, hx⟩ | ⟨hfloats, hx, -⟩
        · exact hsole x hx
        · exact absurd (hsole (home x) hx) (hbare x hfloats)
  · exact h.fed_iff.2 (hf.fed id (by rw [← h.program.op, hid]))

end Seated

/-! ## A whole run -/

/-- Instructions ask for the same operands as before the schedule. -/
theorem operable_run_iff {g : Graph} (hg : g.Consistent) (hrun : (run g).failure? = none) {id : NodeId} :
    Operable (run g).graph id ↔ Operable g id := by
  have hprogram := (scheduled_of_run hg hrun).1
  have hprops : ∀ key, key = Props.selector ∨ key = Props.argumentCount →
      ((run g).graph.props id).get? key = (g.props id).get? key := by
    rintro key (rfl | rfl)
    · exact get?_props_run hrun (by decide) id
    · exact get?_props_run hrun (by decide) id
  have hinputs : (run g).graph.inputsWhere id Role.isValue = g.inputsWhere id Role.isValue :=
    hprogram.inputsWhere_of_le (fun _ => unscheduled_of_isValue) id
  have houtputs : ∀ name, name = .ifTrue ∨ name = .ifFalse →
      (run g).graph.outputsNamed id name = g.outputsNamed id name := by
    intro name hname
    refine hprogram.outputsWhere_of_le (fun role hrole => unscheduled_of_isControl ?_) id
    rw [Role.isControl, of_decide_eq_true hrole]
    rcases hname with rfl | rfl <;> rfl
  refine ⟨fun h => h.of_roles (hprogram.op id).symm (fun key hkey => (hprops key hkey).symm) (by rw [hinputs])
    fun _ name hname hone => ?_,
    fun h => h.of_roles (hprogram.op id) hprops (by rw [hinputs]) fun _ name hname hone => ?_⟩
  · rw [← houtputs name hname, hone]
  · rw [houtputs name hname, hone]

theorem seated_of_run {g : Graph} {home : NodeId → NodeId} (hfresh : Fresh g) (hh : Homes g [] home)
    (hrun : (run g).failure? = none) : Seated g home (run g).graph :=
  ⟨hfresh.consistent, hfresh.roles, hh, (scheduled_of_run hfresh.consistent hrun).1,
    fun hfirst => inBlock_run_iff hfresh hh hrun hfirst⟩

/-- If all floating nodes of a graph that can be scheduled have homes, it is listed exactly if
    control flows and instructions have their operands. -/
theorem linearize_run_iff {g : Graph} {home : NodeId → NodeId} (hfresh : Fresh g) (hh : Homes g [] home)
    (hunregistered : ∀ id, (g.props id).has Props.register = false)
    (hrun : (run g).failure? = none) :
    (∃ blocks, (linearize (run g).graph).result = .ok blocks) ↔ Flowing g [] home ∧ ∀ id, Operable g id := by
  obtain ⟨hprogram, order, hs⟩ := scheduled_of_run hfresh.consistent hrun
  have hseated := seated_of_run hfresh hh hrun
  have hvalued : (run g).graph.Valued := fun e he hvalue => by
    rw [producesValue, hprogram.op]
    exact hfresh.valued e
      (multiplicity_pos.2 ((hprogram.mem_outputs_iff (unscheduled_of_isValue hvalue)).1 (multiplicity_pos.1 he))) hvalue
  have hregisters : ∀ id, ((run g).graph.props id).has Props.register = false := fun id => by
    rw [Props.has, get?_props_run hrun (by decide), ← Props.has]
    exact hunregistered id
  rw [exists_linearize_iff hs hvalued hregisters]
  refine ⟨fun h => ⟨hseated.flowing h, fun id => ?_⟩, fun h => hseated.listable h.1 fun id => ?_⟩
  · exact (operable_run_iff hfresh.consistent hrun).1 (h.operable id)
  · exact (operable_run_iff hfresh.consistent hrun).2 (h.2 id)

end SeaOfNodes.Listing
