/-
  SeaOfNodes.Proofs.Compile.EntryBlock

  Where a listing is entered.  Blocks are in the order of the nodes that begin them, except
  that those which return come last, so the block of the start is the first one exactly if
  no other goes before it in that order.  A block whose first node is described earlier does,
  and so does any block that goes on if the block of the start returns.
-/
import SeaOfNodes.Proofs.Compile.DefinedBeforeUse
import SeaOfNodes.Proofs.Listing.Coverage
import SeaOfNodes.Proofs.Listing.Numbering
import SeaOfNodes.Proofs.Pass.Kept

namespace SeaOfNodes

/-! ## The order of blocks -/

namespace Listing

open Schedule

/-- The block of one chain has its place before that of another: it goes on and the other
    returns, or they are alike and its first node has the smaller handle. -/
def Chain.GoesBefore (c d : Chain) : Prop :=
  (c.returns = false ∧ d.returns = true) ∨ (c.returns = d.returns ∧ c.first < d.first)

theorem Chain.GoesBefore.asymm {c d : Chain} (h : c.GoesBefore d) : ¬ d.GoesBefore c := by
  rintro (⟨hd, hc⟩ | ⟨hsame, hlt⟩)
  · rcases h with ⟨hc', -⟩ | ⟨hsame, -⟩
    · rw [hc] at hc'
      cases hc'
    · rw [hc, hd] at hsame
      cases hsame
  · rcases h with ⟨hc', hd'⟩ | ⟨-, hlt'⟩
    · rw [hc', hd'] at hsame
      cases hsame
    · exact absurd hlt (Int.lt_asymm hlt')

theorem pairwise_blockFirsts (g : Graph) : (blockFirsts g).Pairwise (· < ·) := g.pairwise_lt_ids.filter _

/-- The chains of a plan are in order. -/
theorem pairwise_goesBefore_of_plan {g : Graph} {chains : List Chain} {layout : Layout}
    (h : plan g = .ok (chains, layout)) : chains.Pairwise Chain.GoesBefore := by
  rw [plan] at h
  obtain ⟨collected, hcollect, h⟩ := bind_eq_ok.1 h
  obtain ⟨-, -, h⟩ := bind_eq_ok.1 h
  obtain ⟨ordered, horder, h⟩ := bind_eq_ok.1 h
  obtain ⟨_, -, hpair⟩ := bind_eq_ok.1 h
  cases hpair
  have hfirsts : collected.Pairwise fun c d => c.first < d.first := by
    rw [← List.pairwise_map, (traced_of_collectChains hcollect).1]
    exact pairwise_blockFirsts g
  have hpart : ∀ returns : Bool, (collected.filter fun c => c.returns == returns).Pairwise Chain.GoesBefore := by
    intro returns
    refine (hfirsts.filter _).imp_of_mem fun {c d} hc hd hlt => .inr ⟨?_, hlt⟩
    have hc := (List.mem_filter.1 hc).2
    have hd := (List.mem_filter.1 hd).2
    rw [beq_iff_eq] at hc hd
    rw [hc, hd]
  rw [(orderChains_eq_ok horder).2, List.pairwise_append]
  refine ⟨by simpa using hpart false, by simpa using hpart true, fun c hc d hd => .inl ⟨?_, ?_⟩⟩
  · simpa using (List.mem_filter.1 hc).2
  · exact (List.mem_filter.1 hd).2

/-- A chain is the first one exactly if it goes before all others. -/
theorem index_eq_zero_iff {chains : List Chain} (horder : chains.Pairwise Chain.GoesBefore) {c : Chain} {i : Nat}
    (hc : chains[i]? = some c) : i = 0 ↔ ∀ d ∈ chains, d ≠ c → c.GoesBefore d := by
  constructor
  · rintro rfl d hd hne
    cases chains with
    | nil => cases hc
    | cons x rest =>
        obtain rfl : x = c := by simpa using hc
        have hrest := (List.mem_cons.1 hd).resolve_left hne
        exact (List.pairwise_cons.1 horder).1 d hrest
  · intro hbefore
    by_contra hi
    obtain ⟨hlen, hget⟩ := List.getElem?_eq_some_iff.1 hc
    have hfirst := List.pairwise_iff_getElem.1 horder 0 i (by omega) hlen (Nat.pos_of_ne_zero hi)
    rw [hget] at hfirst
    have hne : chains[0] ≠ c := by
      intro heq
      rw [heq] at hfirst
      exact hfirst.asymm hfirst
    exact hfirst.asymm (hbefore _ (List.getElem_mem _) hne)

/-- If its first node has the smallest handle, that is so unless it returns and another goes
    on. -/
theorem goesBefore_all_iff {chains : List Chain} {c : Chain} (hc : c ∈ chains)
    (hsmallest : ∀ d ∈ chains, d ≠ c → c.first < d.first) :
    (∀ d ∈ chains, d ≠ c → c.GoesBefore d) ↔ c.returns = false ∨ ∀ d ∈ chains, d.returns = true := by
  constructor
  · intro hbefore
    cases hreturns : c.returns with
    | false => exact .inl rfl
    | true =>
        refine .inr fun d hd => ?_
        by_cases hne : d = c
        · rw [hne, hreturns]
        · rcases hbefore d hd hne with ⟨hgoesOn, -⟩ | ⟨hsame, -⟩
          · rw [hreturns] at hgoesOn
            cases hgoesOn
          · rw [← hsame, hreturns]
  · rintro (hgoesOn | hall) d hd hne
    · cases hreturns : d.returns with
      | false => exact .inr ⟨hgoesOn.trans hreturns.symm, hsmallest d hd hne⟩
      | true => exact .inl ⟨hgoesOn, hreturns⟩
    · exact .inr ⟨(hall c hc).trans (hall d hd).symm, hsmallest d hd hne⟩

/-- The block that a chain is emitted as is at an index of a listing. -/
def BlockAt (out : Graph) (layout : Layout) (blocks : List Block) (i : Nat) (c : Chain) : Prop :=
  ∃ body raw, EmittedBlock out layout c body raw ∧ blocks[i]? = some (simplifyBlock (Int64.ofNat (i + 1)) raw)

end Listing

/-! ## The block of the start -/

namespace Compiler

open Listing Schedule

/-- Of the blocks of a listing that of the start is the first one exactly if it goes before all
    others.  If the start is described before all other nodes, that is so unless its block
    returns and another one does not. -/
theorem entry_eq_zero_iff (c : Compiler) (spec : Description.GraphSpec) (g : Graph)
    (hbuild : Description.build spec = .ok g) (blocks : List Block) (hcompile : c.compile g = .ok blocks) :
    ∃ out chains layout own entry, linearize (c.scheduled g) = .done out blocks ∧
      plan (c.scheduled g) = .ok (chains, layout) ∧ Covers (c.scheduled g) chains ∧
      (∀ i d, chains[i]? = some d → BlockAt out layout blocks i d) ∧ blocks.length = chains.length ∧
      chains.Pairwise Chain.GoesBefore ∧
      (∃ k n, spec.nodes[k]? = some n ∧ n.op = Op.start.name ∧ own.first = Int.ofNat k) ∧
      (c.scheduled g).find .start = [own.first] ∧ chains[entry]? = some own ∧
      (entry = 0 ↔ ∀ d ∈ chains, d ≠ own → own.GoesBefore d) ∧
      (own.first = 0 → (entry = 0 ↔ own.returns = false ∨ ∀ d ∈ chains, d.returns = true)) := by
  have hg := Description.consistent_of_build hbuild
  obtain ⟨hrun, out, hlist⟩ := compile_eq_ok hcompile
  obtain ⟨hprogram, order, hscheduled⟩ := scheduled_of_run (Pass.consistent_runPasses c hg) hrun
  obtain ⟨chains, layout, hplan, hlisted⟩ := listed_of_linearize hscheduled hlist
  have hcovers := covers_of_plan hscheduled.consistent hplan
  obtain ⟨start, hfind⟩ : ∃ start, (c.scheduled g).find .start = [start] :=
    List.length_eq_one_iff.1 hscheduled.oneStart
  have hop : (c.scheduled g).op start = .start := (Graph.mem_find_iff (by decide)).1 (by rw [hfind]; simp)
  have hfirst : start ∈ blockFirsts (c.scheduled g) :=
    mem_blockFirsts.2 ⟨Graph.has_of_op_ne_invalid (by rw [hop]; decide), by simp [Graph.beginsBlock, hop]⟩
  obtain ⟨own, hown, rfl⟩ := List.mem_map.1 (hcovers.firsts.mem_iff.2 hfirst)
  obtain ⟨entry, hentry⟩ := List.mem_iff_getElem?.1 hown
  -- No pass and no schedule touches the start, so its handle is the place of its description.
  have hdescribed : g.op own.first = .start := by
    rw [← (Pass.keeps_runPasses c hg).starts, ← hop]
    exact (hprogram.op _).symm
  have horder := pairwise_goesBefore_of_plan hplan
  have hiff := index_eq_zero_iff horder hentry
  refine ⟨out, chains, layout, own, entry, hlist, hplan, hcovers, fun i d hd => ?_, hlisted.length_eq, horder,
    Description.exists_start_of_build hbuild hdescribed, hfind, hentry, hiff, fun hzero => ?_⟩
  · obtain ⟨body, raw, hemitted, -, hblock⟩ := hlisted.block i d hd
    exact ⟨body, raw, hemitted, hblock⟩
  · refine hiff.trans (goesBefore_all_iff hown fun d hd hne => ?_)
    have hlive := (mem_blockFirsts.1 (hcovers.firsts.mem_iff.1 (List.mem_map.2 ⟨d, hd, rfl⟩))).1
    obtain ⟨k, -, hk⟩ := Graph.exists_slot_of_has hlive
    have hdistinct : d.first ≠ own.first := fun hsame => hne (hlisted.planned.eq_of_first_eq hd hown hsame)
    rw [hzero] at hdistinct ⊢
    rw [← hk] at hdistinct ⊢
    exact Int.natCast_pos.2 (Nat.pos_of_ne_zero fun h => hdistinct (by rw [h]; rfl))

/-- A start and a merge behind it. -/
def startFirst : Description.GraphSpec :=
  ⟨"first", "", [node "start" "begin" [], node "merge" "join" [("control(0)", "begin")],
    node "finish" "end" [("control", "join")]]⟩

def startFirstGraph : Graph := .assemble [.start, .merge, .finish] [⟨0, 1, .controlN 0⟩, ⟨1, 2, .control⟩]

/-- Its schedule and listing, made once for all that is read off them. -/
theorem linearize_startFirst :
    (fun r : Schedule.Report => (r.failure?, (linearize r.graph).result, r.graph.find .start,
      (plan r.graph).map fun planned => planned.1.map fun c => (c.first, c.returns))) (Schedule.run startFirstGraph)
      = (none, .ok [[], [⟨returnOp, noRegister, [], [], []⟩]], [0], .ok [(0, false), (1, true)]) := by cbv

/-- The start is described first and its block goes on, so the listing is entered at its first
    block, which is empty. -/
theorem entry_startFirst_eq_zero :
    Description.build startFirst = .ok startFirstGraph ∧
      compile ⟨[], false, 8⟩ startFirstGraph = .ok [[], [⟨returnOp, noRegister, [], [], []⟩]] ∧
      ∃ chains layout, ∃ own : Chain, plan (scheduled ⟨[], false, 8⟩ startFirstGraph) = .ok (chains, layout) ∧
        (scheduled ⟨[], false, 8⟩ startFirstGraph).find .start = [own.first] ∧ own.first = 0 ∧
        own.returns = false ∧ chains[0]? = some own := by
  have hbuild : Description.build startFirst = .ok startFirstGraph := by decide +kernel
  obtain ⟨hrun, hresult, hstart, hchains⟩ : _ ∧ _ ∧ _ ∧ _ := by simpa only [Prod.mk.injEq] using linearize_startFirst
  have hcompile : compile ⟨[], false, 8⟩ startFirstGraph = .ok [[], [⟨returnOp, noRegister, [], [], []⟩]] :=
    compile_of_linearize rfl hrun hresult
  obtain ⟨out, chains, layout, own, entry, -, hplan, -, -, -, -, -, hfind, hentry, -, hzero⟩ :=
    entry_eq_zero_iff ⟨[], false, 8⟩ startFirst startFirstGraph hbuild _ hcompile
  have hfirst : own.first = 0 := by
    exact List.head_eq_of_cons_eq (hfind.symm.trans hstart)
  have hlist : chains.map (fun c => (c.first, c.returns)) = [(0, false), (1, true)] := by
    exact Except.ok.inj ((congrArg (Except.map _) hplan).symm.trans hchains)
  have hmem : ((0 : NodeId), own.returns) ∈ [((0 : NodeId), false), (1, true)] := by
    rw [← hlist, ← hfirst]
    exact List.mem_map.2 ⟨own, List.mem_of_getElem? hentry, rfl⟩
  have hgoesOn : own.returns = false := by simpa using hmem
  rw [(hzero hfirst).2 (.inl hgoesOn)] at hentry
  exact ⟨hbuild, hcompile, chains, layout, own, hplan, hfind, hfirst, hgoesOn, hentry⟩

/-! ## A start that is described late, and one whose block returns -/

/-- A merge is described before the start, and its block goes on to another one. -/
def lateStart : Description.GraphSpec :=
  ⟨"late", "", [node "merge" "join" [("control(0)", "begin")], node "start" "begin" [],
    node "merge" "next" [("control(0)", "join")], node "finish" "end" [("control", "next")]]⟩

def lateStartGraph : Graph :=
  .assemble [.merge, .start, .merge, .finish] [⟨1, 0, .controlN 0⟩, ⟨0, 2, .controlN 0⟩, ⟨2, 3, .control⟩]

def lateStartBlocks : List Block :=
  [[jumpTo (.ofBlock 2)], [jumpTo (.ofBlock 0)], [⟨returnOp, noRegister, [], [], []⟩]]

theorem linearize_lateStart :
    (fun r : Schedule.Report => (r.failure?, (linearize r.graph).result, r.graph.find .start,
      (plan r.graph).map fun planned => planned.2.index.lookup 1)) (Schedule.run lateStartGraph)
      = (none, .ok lateStartBlocks, [1], .ok (some 1)) := by cbv

/-- The start is described first, but its block returns, and a block that goes on comes first. -/
def returningStart : Description.GraphSpec :=
  ⟨"returning", "", [node "start" "begin" [], node "finish" "end" [("control", "begin")],
    node "finish" "other" [("true", "begin"), ("control", "begin")], node "merge" "join" [("control(0)", "other")],
    node "merge" "next" [("control(0)", "join")], node "finish" "last" [("control", "next")]]⟩

def returningStartGraph : Graph :=
  .assemble [.start, .finish, .finish, .merge, .merge, .finish]
    [⟨0, 1, .control⟩, ⟨0, 2, .ifTrue⟩, ⟨0, 2, .control⟩, ⟨2, 3, .controlN 0⟩, ⟨3, 4, .controlN 0⟩, ⟨4, 5, .control⟩]

def returningStartBlocks : List Block :=
  [[jumpTo (.ofBlock 3)], [⟨returnOp, noRegister, [], [], []⟩], [⟨returnOp, noRegister, [], [], []⟩],
    [⟨returnOp, noRegister, [], [], []⟩]]

theorem linearize_returningStart :
    (fun r : Schedule.Report => (r.failure?, (linearize r.graph).result, r.graph.find .start,
      (plan r.graph).map fun planned => planned.2.index.lookup 0)) (Schedule.run returningStartGraph)
      = (none, .ok returningStartBlocks, [0], .ok (some 1)) := by cbv

/-- The block of the start is the second one in either listing. -/
theorem entry_ne_zero_of_order :
    (Description.build lateStart = .ok lateStartGraph ∧
      compile ⟨[], false, 8⟩ lateStartGraph = .ok lateStartBlocks ∧
      (scheduled ⟨[], false, 8⟩ lateStartGraph).find .start = [1] ∧
      ∃ chains layout, plan (scheduled ⟨[], false, 8⟩ lateStartGraph) = .ok (chains, layout) ∧
        layout.index.lookup 1 = some 1) ∧
    Description.build returningStart = .ok returningStartGraph ∧
      compile ⟨[], false, 8⟩ returningStartGraph = .ok returningStartBlocks ∧
      (scheduled ⟨[], false, 8⟩ returningStartGraph).find .start = [0] ∧
      ∃ chains layout, plan (scheduled ⟨[], false, 8⟩ returningStartGraph) = .ok (chains, layout) ∧
        layout.index.lookup 0 = some 1 := by
  obtain ⟨hrun, hresult, hstart, hindex⟩ : _ ∧ _ ∧ _ ∧ _ := by simpa only [Prod.mk.injEq] using linearize_lateStart
  obtain ⟨hrun', hresult', hstart', hindex'⟩ : _ ∧ _ ∧ _ ∧ _ := by
    simpa only [Prod.mk.injEq] using linearize_returningStart
  obtain ⟨⟨chains, layout⟩, hplan, hlookup⟩ := map_eq_ok.1 hindex
  obtain ⟨⟨chains', layout'⟩, hplan', hlookup'⟩ := map_eq_ok.1 hindex'
  exact ⟨⟨by decide +kernel, compile_of_linearize rfl hrun hresult, hstart, chains, layout, hplan, hlookup⟩,
    by decide +kernel, compile_of_linearize rfl hrun' hresult', hstart', chains', layout', hplan', hlookup'⟩

end Compiler

end SeaOfNodes
