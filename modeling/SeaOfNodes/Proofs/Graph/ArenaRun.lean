/-
  SeaOfNodes.Proofs.Graph.ArenaRun

  Runs of calls that start from nothing.  Whatever the calls are and whatever they name,
  the arena stays consistent: a call either stops because it names something that is not
  there, and then nothing has changed, or it does the whole of its work.
-/
import SeaOfNodes.Proofs.Graph.Following

namespace SeaOfNodes.Arena

open SeaOfNodes.Graph

/-! ## Consistent arenas -/

/-- Cells know their handles, the counter counts them, edges are stored at the nodes they
    name and lead to cells in use, and every edge is stored as often at the one end as at
    the other. -/
structure Consistent (a : Arena) : Prop extends Sound a where
  outputs_ends : ∀ id, ∀ e ∈ a.outputs id, e.source = id ∧ (a.cell? e.target).isSome = true
  inputs_ends : ∀ id, ∀ e ∈ a.inputs id, e.target = id ∧ (a.cell? e.source).isSome = true
  count_eq : ∀ e, (a.outputs e.source).count e = (a.inputs e.target).count e

theorem consistent_iff {a : Arena} : a.Consistent ↔ a.Sound ∧ a.graph.Consistent := by
  constructor
  · intro h
    refine ⟨h.toSound, ⟨fun id e he => ?_, fun id e he => ?_⟩, fun e => ?_⟩
    · rw [outputs_graph] at he
      exact (h.outputs_ends id e he).1
    · rw [inputs_graph] at he
      exact (h.inputs_ends id e he).1
    · rw [excess, outputs_graph, inputs_graph, h.count_eq]
      omega
  · rintro ⟨hsound, hgraph⟩
    refine ⟨hsound, fun id e he => ?_, fun id e he => ?_, fun e => ?_⟩
    · rw [← outputs_graph] at he
      exact ⟨hgraph.source_eq id e he, by rw [← has_graph]; exact hgraph.has_target he⟩
    · rw [← inputs_graph] at he
      exact ⟨hgraph.target_eq id e he, by rw [← has_graph]; exact hgraph.has_source he⟩
    · rw [← outputs_graph, ← inputs_graph]
      exact hgraph.count_eq e

theorem graph_empty : empty.graph = Graph.empty := by simp [empty, graph, Graph.empty]

theorem consistent_empty : empty.Consistent := by
  refine consistent_iff.2 ⟨⟨fun id _ h => ?_, rfl⟩, graph_empty ▸ Graph.consistent_empty⟩
  cases id <;> simp [empty, cell?] at h

/-! ## Runs -/

/-- A call stops exactly when it is refused, with nothing changed and for the reason that the
    operation on graphs gives; otherwise it does what that operation does. -/
structure Answers (a : Arena) (call : Call) : Prop where
  stops_iff : (∃ halt, (a.perform call).result = .error halt) ↔ call.Refused a.graph
  unchanged : ∀ halt, (a.perform call).result = .error halt → (a.perform call).state = a
  cause : ∀ halt, (a.perform call).result = .error halt →
    ∃ cause, halt = .misuse cause ∧ call.apply a.graph = .error cause
  graph : (a.perform call).result = .ok () → call.apply a.graph = .ok (a.perform call).state.graph

theorem Consistent.answers {a : Arena} (h : a.Consistent) (call : Call) : a.Answers call := by
  obtain ⟨hsound, hgraph⟩ := consistent_iff.1 h
  have hfollows := follows_perform hsound hgraph call
  have hfails := Call.fails_apply_iff a.graph call
  -- What the operation on graphs answers settles all four: the arena follows it either way.
  cases happly : call.apply a.graph with
  | error cause =>
      rw [happly] at hfollows hfails
      have hstops : a.perform call = .failed a (.misuse cause) := hfollows
      refine ⟨?_, ?_, ?_, ?_⟩
      · rw [hstops, ← hfails]
        exact iff_of_true ⟨.misuse cause, rfl⟩ ⟨cause, rfl⟩
      · intro halt _
        rw [hstops]
        rfl
      · intro halt hhalt
        rw [hstops] at hhalt
        cases hhalt
        exact ⟨cause, rfl, happly⟩
      · intro hok
        rw [hstops] at hok
        cases hok
  | ok g =>
      rw [happly] at hfollows hfails
      obtain ⟨t, hdone, ht, -⟩ := hfollows
      have hnever : ∀ halt, (a.perform call).result ≠ .error halt := by
        intro halt hhalt
        rw [hdone] at hhalt
        cases hhalt
      refine ⟨?_, fun halt hhalt => absurd hhalt (hnever halt), fun halt hhalt => absurd hhalt (hnever halt),
        fun _ => ?_⟩
      · rw [← hfails]
        exact iff_of_false (fun ⟨halt, hhalt⟩ => hnever halt hhalt) (Call.not_fails_ok g)
      · rw [hdone, happly, ← ht]
        rfl

/-- What a call leaves behind is consistent and stands for the graph that it gives. -/
theorem Consistent.perform {a : Arena} (h : a.Consistent) (call : Call) :
    (a.perform call).state.Consistent ∧ (a.perform call).state.graph = call.attempt a.graph ∧
      a.slots.size ≤ (a.perform call).state.slots.size := by
  obtain ⟨hsound, hgraph⟩ := consistent_iff.1 h
  have hfollows := follows_perform hsound hgraph call
  rw [Call.attempt]
  cases happly : call.apply a.graph with
  | error cause =>
      rw [happly] at hfollows
      have hstops : a.perform call = .failed a (.misuse cause) := hfollows
      rw [hstops]
      exact ⟨h, rfl, Nat.le_refl _⟩
  | ok g =>
      rw [happly] at hfollows
      obtain ⟨t, hdone, rfl, ht⟩ := hfollows
      rw [hdone]
      refine ⟨consistent_iff.2 ⟨ht, Call.consistent_apply hgraph happly⟩, rfl, ?_⟩
      have hsize := Call.size_arena_apply happly
      rwa [Arena.graph, Arena.graph, Array.size_map, Array.size_map] at hsize

theorem Consistent.run {a : Arena} (h : a.Consistent) (calls : List Call) :
    (a.run calls).Consistent ∧ (a.run calls).graph = calls.foldl Call.attempt a.graph ∧
      a.slots.size ≤ (a.run calls).slots.size := by
  induction calls generalizing a with
  | nil => exact ⟨h, rfl, Nat.le_refl _⟩
  | cons call rest ih =>
      obtain ⟨hnext, hgraph, hsize⟩ := h.perform call
      obtain ⟨hrun, hrunGraph, hrunSize⟩ := ih hnext
      refine ⟨hrun, ?_, hsize.trans hrunSize⟩
      rw [List.foldl_cons, ← hgraph]
      exact hrunGraph

theorem lt_size_of_cell? {a : Arena} {i : Nat} (h : (a.cell? (Int.ofNat i)).isSome = true) : i < a.slots.size := by
  by_contra hge
  simp [cell?, hge] at h

/-- Whatever is called, and with whatever arguments, the arena stays consistent and stands for
    the graph that the operations on graphs give; every call that comes next is answered as it
    should be; and the handle of a new node was never in use before. -/
theorem run_consistent (calls : List Call) :
    (empty.run calls).Consistent ∧ (empty.run calls).graph = calls.foldl Call.attempt Graph.empty ∧
      (∀ call, (empty.run calls).Answers call) ∧
      ∀ earlier later, calls = earlier ++ later → ∀ id, ((empty.run earlier).cell? id).isSome = true →
        ∀ op props, ((empty.run calls).addNode op props).1 ≠ id := by
  obtain ⟨hconsistent, hgraph, -⟩ := consistent_empty.run calls
  rw [graph_empty] at hgraph
  refine ⟨hconsistent, hgraph, hconsistent.answers, ?_⟩
  rintro earlier later rfl id hid op props rfl
  have hlater := ((consistent_empty.run earlier).1.run later).2.2
  have hlt := lt_size_of_cell? hid
  rw [run, List.foldl_append] at hlt
  exact absurd hlt (Nat.not_lt.2 hlater)

/-- A node that reads itself twice over is merged into its own consumer: every edge becomes one
    of the consumer to itself. -/
example : ((empty.run [.addNode .arg .empty, .addNode .trace .empty, .connect ⟨0, 0, .value⟩, .connect ⟨0, 0, .value⟩,
    .connect ⟨0, 1, .value⟩, .replace 0 1]).inputs 1) = [⟨1, 1, .value⟩, ⟨1, 1, .value⟩, ⟨1, 1, .value⟩] := by
  decide

end SeaOfNodes.Arena
