/-
  SeaOfNodes.Proofs.Schedule.LongestPath

  Numbering from nothing.  It fails exactly where a fixed node cannot be reached or control
  runs in a circle; otherwise the number of a node is the length of the longest way to it
  from a start.  Handles have no part in this: a node may be numbered in the same sweep as
  its predecessor or many sweeps later, with the same number.
-/
import Mathlib.Algebra.Group.Int.Defs
import SeaOfNodes.Proofs.Schedule.Orderable

namespace SeaOfNodes

open Relation Schedule

/-! ## Ways from a start -/

namespace Graph

/-- Control leads from one node to another, which is no start. -/
def Advances (g : Graph) (a b : NodeId) : Prop := b ∈ g.controlSuccessors a ∧ g.op b ≠ .start

theorem Advances.isFixed {g : Graph} {a b : NodeId} (h : g.Advances a b) : g.isFixed a = true :=
  isFixed_of_hasControlSuccessor h.1

theorem Advances.has {g : Graph} {a b : NodeId} (h : g.Advances a b) : g.has a = true := has_of_isFixed h.isFixed

theorem Consistent.advances {g : Graph} (hg : g.Consistent) {a b : NodeId} (ha : a ∈ g.controlPredecessors b)
    (hop : g.op b ≠ .start) : g.Advances a b :=
  ⟨hg.mem_controlPredecessors.1 ha, hop⟩

/-- Control runs in a circle that no start is on. -/
def Circles (g : Graph) (id : NodeId) : Prop := TransGen g.Advances id id

/-- A control path of some length leads to a node from a start and enters no start again. -/
inductive PathLength (g : Graph) : NodeId → Nat → Prop
  | start {id : NodeId} (hop : g.op id = .start) : PathLength g id 0
  | step {a b : NodeId} {n : Nat} (h : PathLength g a n) (hstep : g.Advances a b) : PathLength g b (n + 1)

/-- The length of the longest path to a node. -/
def Longest (g : Graph) (id : NodeId) (n : Nat) : Prop := g.PathLength id n ∧ ∀ k, g.PathLength id k → k ≤ n

theorem Longest.unique {g : Graph} {id : NodeId} {n m : Nat} (h : g.Longest id n) (h' : g.Longest id m) : n = m :=
  Nat.le_antisymm (h'.2 n h.1) (h.2 m h'.1)

/-- No path of any length but none leads to a start. -/
theorem longest_start {g : Graph} {id : NodeId} (hop : g.op id = .start) : g.Longest id 0 := by
  refine ⟨.start hop, fun k hk => ?_⟩
  cases hk with
  | start _ => exact Nat.le_refl 0
  | step _ hstep => exact absurd hop hstep.2

/-- The longest path to a node is that to one of its predecessors and a step. -/
theorem longest_step {g : Graph} (hg : g.Consistent) {id : NodeId} {n : Nat} (hop : g.op id ≠ .start)
    (hattained : ∃ a ∈ g.controlPredecessors id, g.Longest a n)
    (hmost : ∀ a ∈ g.controlPredecessors id, ∃ k, g.Longest a k ∧ k ≤ n) : g.Longest id (n + 1) := by
  obtain ⟨a, ha, hlongest⟩ := hattained
  refine ⟨.step hlongest.1 (hg.advances ha hop), fun k hk => ?_⟩
  cases hk with
  | start hstart => exact absurd hstart hop
  | @step b _ j hpath hstep =>
      obtain ⟨m, hm, hle⟩ := hmost b (hg.mem_controlPredecessors.2 hstep.1)
      have hj := hm.2 j hpath
      omega

/-- Along control the longest path gets longer. -/
theorem Longest.lt_of_advances {g : Graph} {a b : NodeId} {n m : Nat} (ha : g.Longest a n) (hb : g.Longest b m)
    (hstep : g.Advances a b) : n < m :=
  hb.2 (n + 1) (.step ha.1 hstep)

/-- Where control does not run in circles its nodes can be ranked: by the number of nodes that it
    leads from to them. -/
theorem exists_rank {g : Graph} (hcircle : ∀ id, ¬ g.Circles id) :
    ∃ rank : NodeId → Nat, ∀ a b, g.Advances a b → rank a < rank b := by
  classical
  let before : NodeId → List NodeId := fun id => g.ids.filter fun x => TransGen g.Advances x id
  refine ⟨fun id => (before id).length, fun a b hstep => ?_⟩
  have hlive : g.has a = true := hstep.has
  -- What leads to `a` leads to `b`, and so does `a`, which does not lead to itself.
  have hnodup : (a :: before a).Nodup := by
    refine List.nodup_cons.2 ⟨fun hmem => ?_, g.nodup_ids.filter _⟩
    exact hcircle a (of_decide_eq_true (List.mem_filter.1 hmem).2)
  have hsub : a :: before a ⊆ before b := by
    intro x hx
    rcases List.mem_cons.1 hx with rfl | hx
    · exact List.mem_filter.2 ⟨mem_ids.2 hlive, decide_eq_true (.single hstep)⟩
    · obtain ⟨hids, hpath⟩ := List.mem_filter.1 hx
      exact List.mem_filter.2 ⟨hids, decide_eq_true (.tail (of_decide_eq_true hpath) hstep)⟩
  exact (List.subperm_of_subset hnodup hsub).length_le

end Graph

namespace Schedule

open SeaOfNodes.Graph

/-- Control reaches every fixed node but a start. -/
def AllEntered (g : Graph) : Prop := ∀ id, g.isFixed id = true → g.op id ≠ .start → g.controlPredecessors id ≠ []

/-- Graphs can be numbered if control reaches every fixed node and does not run in circles. -/
theorem orderable_iff {g : Graph} (hg : g.Consistent) :
    Orderable g ↔ AllEntered g ∧ ∀ id, ¬ g.Circles id := by
  have hadvances : ∀ {a b : NodeId}, g.Advances a b ↔
      ∃ role : Role, role.isControl = true ∧ 0 < g.multiplicity ⟨a, b, role⟩ ∧ g.op b ≠ .start := by
    intro a b
    rw [Advances, ← hg.mem_controlPredecessors, mem_controlPredecessors_iff hg]
    constructor
    · rintro ⟨⟨role, hrole, hpos⟩, hop⟩
      exact ⟨role, hrole, hpos, hop⟩
    · rintro ⟨role, hrole, hpos, hop⟩
      exact ⟨⟨role, hrole, hpos⟩, hop⟩
  constructor
  · rintro ⟨hreached, rank, hrank⟩
    refine ⟨fun id hfixed hop => ?_, fun id hcircle => ?_⟩
    · obtain ⟨a, ha⟩ := hreached id hfixed hop
      exact List.ne_nil_of_mem ((mem_controlPredecessors_iff hg).2 ha)
    · have hless : ∀ {a b : NodeId}, TransGen g.Advances a b → rank a < rank b := by
        intro a b hpath
        induction hpath with
        | single hstep =>
            obtain ⟨role, hrole, hpos, hop⟩ := hadvances.1 hstep
            exact hrank _ hrole hpos hop
        | tail _ hstep ih =>
            obtain ⟨role, hrole, hpos, hop⟩ := hadvances.1 hstep
            exact Nat.lt_trans ih (hrank _ hrole hpos hop)
      exact Nat.lt_irrefl _ (hless hcircle)
  · rintro ⟨hentered, hcircle⟩
    obtain ⟨rank, hrank⟩ := exists_rank hcircle
    refine ⟨fun id hfixed hop => ?_, rank, fun e hrole hpos hop => hrank _ _ (hadvances.2 ⟨e.role, hrole, hpos, hop⟩)⟩
    obtain ⟨a, ha⟩ := List.exists_mem_of_ne_nil _ (hentered id hfixed hop)
    exact ⟨a, (mem_controlPredecessors_iff hg).1 ha⟩

/-! ## The loop without a bound -/

/-- Sweeping until nothing waits, for as many sweeps as it takes. -/
inductive Sweeps : Graph → List NodeId → Outcome Graph Error Unit → Prop
  | done {g : Graph} : Sweeps g [] (.done g ())
  | refused {g s : Graph} {waiting : List NodeId} {cause : Error} (hsome : waiting ≠ [])
      (hsweep : orderSweep g waiting = .failed s cause) : Sweeps g waiting (.failed s cause)
  | stuck {g s : Graph} {waiting rest : List NodeId} {first : NodeId}
      (hsweep : orderSweep g waiting = .done s (first :: rest)) (hnone : (first :: rest).length = waiting.length) :
      Sweeps g waiting (.failed s (.cyclicControl (first :: rest).length (s.label first)))
  | again {g s : Graph} {waiting left : List NodeId} {o : Outcome Graph Error Unit} (hsome : waiting ≠ [])
      (hsweep : orderSweep g waiting = .done s left) (hshort : left.length ≠ waiting.length) (hrest : Sweeps s left o) :
      Sweeps g waiting o

theorem sweeps_orderLoop {sweeps : Nat} {g : Graph} {waiting : List NodeId} (hsweeps : waiting.length ≤ sweeps) :
    Sweeps g waiting (orderLoop sweeps g waiting) := by
  induction sweeps generalizing g waiting with
  | zero =>
      obtain rfl := List.length_eq_zero_iff.1 (Nat.le_zero.1 hsweeps)
      exact .done
  | succ sweeps ih =>
      cases waiting with
      | nil => exact .done
      | cons id rest =>
          -- A sweep never makes the list longer, so as many sweeps as nodes are enough.
          have hlen : (orderSweep g (id :: rest)).Ends (fun _ left => True ∧ left.length ≤ (id :: rest).length) _ :=
            orderSweep_ends (P := fun _ _ => True) (fun _ _ => trivial) [] trivial
          rw [orderLoop]
          · cases hsweep : orderSweep g (id :: rest) with
            | mk s result =>
                cases result with
                | error cause => exact .refused (List.cons_ne_nil id rest) hsweep
                | ok left =>
                    have hle := (hlen.of_eq_ok hsweep).2
                    cases left with
                    | nil => exact .again (List.cons_ne_nil id rest) hsweep (by simp) .done
                    | cons first others =>
                        change Sweeps g (id :: rest) (if _ then _ else _)
                        split
                        · rename_i hnone
                          exact .stuck hsweep hnone
                        · rename_i hshort
                          refine .again (List.cons_ne_nil id rest) hsweep hshort (ih ?_)
                          omega
          · simp

/-- Numbering ends: it does what the loop without a bound does. -/
theorem sweeps_orderFixed (g : Graph) : Sweeps g (g.ids.filter g.isFixed) (orderFixed g) :=
  sweeps_orderLoop (Nat.le_refl _)

/-! ## Failures -/

/-- A node to which no control leads is met in the first sweep, whatever numbers there are. -/
theorem orderSweep_of_not_entered {todo : List NodeId} {g : Graph}
    (h : ∃ id ∈ todo, g.op id ≠ .start ∧ g.controlPredecessors id = []) :
    ∃ s label, orderSweep g todo = .failed s (.missingSequence (.noPredecessor label)) := by
  induction todo generalizing g with
  | nil =>
      obtain ⟨id, hid, -⟩ := h
      cases hid
  | cons first rest ih =>
      by_cases hfirst : g.op first ≠ .start ∧ g.controlPredecessors first = []
      · refine ⟨g, g.label first, ?_⟩
        rw [orderSweep, nextSequence, if_neg hfirst.1, hfirst.2]
      · have hrest : ∃ id ∈ rest, g.op id ≠ .start ∧ g.controlPredecessors id = [] := by
          obtain ⟨id, hid, hbad⟩ := h
          rcases List.mem_cons.1 hid with rfl | hid
          · exact absurd hbad hfirst
          · exact ⟨id, hid, hbad⟩
        have hgood : g.op first = .start ∨ g.controlPredecessors first ≠ [] := by
          rwa [not_and_or, ne_eq, not_not] at hfirst
        obtain ⟨next?, hnext, -⟩ := nextSequence_eq_ok hgood
        cases next? with
        | none =>
            obtain ⟨s, label, hsweep⟩ := ih hrest
            exact ⟨s, label, by rw [orderSweep, hnext, hsweep]; rfl⟩
        | some n =>
            -- Numbering a node does not give another one predecessors.
            have hagree := agree_setProp (fun _ => true) g first Props.sequence (.int n)
            have hsame : SameProgram g (g.setProp first Props.sequence (.int n)) := hagree.sameProgram
            obtain ⟨id, hid, hop, hnone⟩ := hrest
            obtain ⟨s, label, hsweep⟩ := ih ⟨id, hid, by rw [hagree.op]; exact hop, by
              rw [hsame.controlPredecessors]; exact hnone⟩
            exact ⟨s, label, by rw [orderSweep, hnext]; exact hsweep⟩

theorem Sweeps.of_failed {g s : Graph} {waiting : List NodeId} {cause : Error} {o : Outcome Graph Error Unit}
    (h : Sweeps g waiting o) (hsweep : orderSweep g waiting = .failed s cause) : o = .failed s cause := by
  cases h with
  | done => cases hsweep
  | refused _ hsweep' =>
      rw [hsweep] at hsweep'
      cases hsweep'
      rfl
  | stuck hsweep' _ =>
      rw [hsweep] at hsweep'
      cases hsweep'
  | again _ hsweep' _ _ =>
      rw [hsweep] at hsweep'
      cases hsweep'

/-- A fixed node that control does not reach makes numbering fail. -/
theorem orderFixed_of_not_entered {g : Graph} (h : ¬ AllEntered g) :
    ∃ label, (orderFixed g).result = .error (.missingSequence (.noPredecessor label)) := by
  obtain ⟨id, hfixed, hop, hnone⟩ : ∃ id, g.isFixed id = true ∧ g.op id ≠ .start ∧ g.controlPredecessors id = [] := by
    simpa [AllEntered] using h
  have hmem : id ∈ g.ids.filter g.isFixed := List.mem_filter.2 ⟨mem_ids.2 (has_of_isFixed hfixed), hfixed⟩
  obtain ⟨s, label, hsweep⟩ := orderSweep_of_not_entered ⟨id, hmem, hop, hnone⟩
  refine ⟨label, ?_⟩
  rw [(sweeps_orderFixed g).of_failed hsweep]
  rfl

/-- Where control reaches all that it has to, only a sweep that numbers nothing makes numbering fail. -/
theorem orderFixed_cases {g : Graph} (h : AllEntered g) :
    (∃ s, orderFixed g = .done s ()) ∨ ∃ n label, (orderFixed g).result = .error (.cyclicControl n label) := by
  have hends := orderFixed_ends (g := g)
    (P := fun s waiting => Agree (fun _ => true) g s ∧ ∀ id ∈ waiting, g.isFixed id = true) ?_
    ⟨.refl _ g, fun id hid => (List.mem_filter.1 hid).2⟩
  · cases horder : orderFixed g with
    | mk s result =>
        cases result with
        | ok _ => exact .inl ⟨s, rfl⟩
        | error cause =>
            obtain ⟨waiting, ⟨hagree, hfixed⟩, ⟨id, hid, hrefused⟩ | ⟨n, label, rfl⟩⟩ := hends.of_eq_error horder
            · -- Only a node without predecessors is refused.
              have hsame : SameProgram g s := hagree.sameProgram
              have hgood : s.op id = .start ∨ s.controlPredecessors id ≠ [] := by
                rw [hagree.op, hsame.controlPredecessors]
                exact Decidable.or_iff_not_imp_left.2 (h id (hfixed id hid))
              obtain ⟨next?, hnext, -⟩ := nextSequence_eq_ok hgood
              rw [hrefused] at hnext
              cases hnext
            · exact .inr ⟨n, label, rfl⟩
  · rintro s front back id n ⟨hagree, hfixed⟩ -
    exact ⟨hagree.trans (agree_setProp _ _ _ _ _), fun other hother => hfixed other (mem_of_mem_without hother)⟩

/-! ## The numbers -/

/-- A node has its distance for a number. -/
def Measures (g s : Graph) (id : NodeId) : Prop := ∃ (n : Int64) (k : Nat), sequence s id = .ok n ∧ g.Longest id k ∧ n.toInt = k

theorem Measures.longest {g s : Graph} {id : NodeId} {n : Int64} (h : Measures g s id) (hn : sequence s id = .ok n) :
    ∃ k : Nat, g.Longest id k ∧ n.toInt = k := by
  obtain ⟨m, k, hm, hk, hmk⟩ := h
  rw [hn, Except.ok.injEq] at hm
  exact ⟨k, hk, by rw [hm]; exact hmk⟩

/-- A node whose predecessors have their distances gets its own, unless it is too large. -/
theorem longest_of_nextSequence {g s : Graph} (hg : g.Consistent) (hsame : SameProgram g s) {id : NodeId} {n : Int64}
    (hnext : nextSequence s id = .ok (some n)) (hpreds : g.op id ≠ .start → ∀ a ∈ g.controlPredecessors id, Measures g s a)
    (hroom : g.op id ≠ .start → ∀ a ∈ g.controlPredecessors id, ∀ m, sequence s a = .ok m → m.toInt < 2 ^ 63 - 1) :
    ∃ k : Nat, g.Longest id k ∧ n.toInt = k := by
  rcases nextSequence_eq_some hnext with ⟨hop, rfl⟩ | ⟨hop, hsome, m, hm, rfl⟩
  · rw [hsame.op] at hop
    exact ⟨0, longest_start hop, rfl⟩
  · rw [hsame.op] at hop
    rw [hsame.controlPredecessors] at hm hsome
    obtain ⟨hall, hattained⟩ := highestSequence?_eq_some hm
    -- The least distance is none, so the highest number is not the -1 that the search begins with.
    obtain ⟨a, ha, ham⟩ : ∃ a ∈ g.controlPredecessors id, sequence s a = .ok m := by
      refine hattained.resolve_left ?_
      rintro rfl
      obtain ⟨a, ha⟩ := List.exists_mem_of_ne_nil _ hsome
      obtain ⟨k, hk, hle⟩ := hall a ha
      obtain ⟨j, -, hj⟩ := (hpreds hop a ha).longest hk
      have hlit : (-1 : Int64).toInt = -1 := by decide
      omega
    obtain ⟨j, hj, hmj⟩ := (hpreds hop a ha).longest ham
    have hlt := hroom hop a ha m ham
    have hadd := toInt_add_one hlt
    refine ⟨j + 1, longest_step hg hop ⟨a, ha, hj⟩ fun b hb => ?_, by omega⟩
    obtain ⟨k, hk, hle⟩ := hall b hb
    obtain ⟨i, hi, hki⟩ := (hpreds hop b hb).longest hk
    exact ⟨i, hi, by omega⟩

/-- What holds while nodes are numbered from nothing: all numbers are distances, of fixed nodes. -/
structure Measuring (g s : Graph) (waiting : List NodeId) : Prop extends Ordered g s waiting where
  measures : ∀ id n, sequence s id = .ok n → Measures g s id
  fixed : ∀ id ∈ waiting, g.isFixed id = true
  floating : ∀ id, g.isFixed id = false → (s.props id).has Props.sequence = false

theorem Measuring.number {g s : Graph} {front back : List NodeId} {id : NodeId} {n : Int64}
    (h : Measuring g s (front ++ id :: back)) (hg : g.Consistent) (hsize : (g.ids.filter g.isFixed).length < 2 ^ 63)
    (hnext : nextSequence s id = .ok (some n)) :
    Measuring g (s.setProp id Props.sequence (.int n)) (front ++ back) := by
  have hwait : id ∈ front ++ id :: back := by simp
  have hlive : s.has id = true := by
    rw [h.agree.has]
    exact h.live id hwait
  have hsame : SameProgram g s := h.agree.sameProgram
  -- It had to wait for its predecessors, so they have their distances already.
  have hnew : ∃ k : Nat, g.Longest id k ∧ n.toInt = k := by
    refine longest_of_nextSequence hg hsame hnext (fun hop a ha => ?_) fun _ a _ m hm => ?_
    · rcases nextSequence_eq_some hnext with ⟨hstart, -⟩ | ⟨-, -, m, hm, -⟩
      · rw [h.agree.op] at hstart
        exact absurd hstart hop
      · rw [hsame.controlPredecessors] at hm
        obtain ⟨k, hk, -⟩ := (highestSequence?_eq_some hm).1 a ha
        exact h.measures a k hk
    · have hbound := (h.bound a m hm).2
      omega
  refine ⟨h.toOrdered.number hg hsize hnext, fun x m hm => ?_, fun x hx => h.fixed x (mem_of_mem_without hx),
    fun x hx => ?_⟩
  · refine (?_ : ∃ k : Nat, g.Longest x k ∧ m.toInt = k).elim fun k hk => ⟨m, k, hm, hk⟩
    rw [sequence_setProp hlive] at hm
    split at hm
    · rename_i hxid
      subst hm hxid
      exact hnew
    · exact (h.measures x m hm).longest hm
  · have hne : x ≠ id := by
      rintro rfl
      rw [h.fixed x hwait] at hx
      cases hx
    rw [props_setProp, if_neg fun hboth => hne hboth.1]
    exact h.floating x hx

theorem measuring_of_orderFixed {g ordered : Graph} (hg : g.Consistent) (hsize : g.arena.size < 2 ^ 63)
    (hnone : ∀ id, (g.props id).has Props.sequence = false) (h : orderFixed g = .done ordered ()) :
    Measuring g ordered [] := by
  refine orderFixed_keeps (fun hs hnext => hs.number hg (length_fixed_lt hsize) hnext) ?_ h
  have hordered := ordered_initial hnone
  exact {
    toOrdered := hordered
    measures := fun id n hn => absurd (hordered.bound id n hn) (by omega)
    fixed := fun id hid => (List.mem_filter.1 hid).2
    floating := fun id _ => hnone id
  }

/-! ## Numbering from nothing -/

/-- Every fixed node has its distance for a number, and no other node has a number. -/
structure Measured (g s : Graph) : Prop where
  /-- Nothing else has changed. -/
  agree : Agree (fun _ => true) g s
  props : ∀ id key, key ≠ Props.sequence → (s.props id).get? key = (g.props id).get? key
  start : ∀ id, g.op id = .start → sequence s id = .ok 0
  /-- One more than the largest number of a predecessor. -/
  next : ∀ id, g.isFixed id = true → g.op id ≠ .start → ∃ n, sequence s id = .ok n ∧
    (∃ a ∈ g.controlPredecessors id, ∃ m, sequence s a = .ok m ∧ n.toInt = m.toInt + 1) ∧
    ∀ a ∈ g.controlPredecessors id, ∃ m, sequence s a = .ok m ∧ m.toInt < n.toInt
  longest : ∀ id, g.isFixed id = true → Measures g s id
  floating : ∀ id, g.isFixed id = false → (s.props id).has Props.sequence = false

theorem Measuring.measured {g s : Graph} (h : Measuring g s []) (hg : g.Consistent)
    (hprops : ∀ id key, key ≠ Props.sequence → (s.props id).get? key = (g.props id).get? key) : Measured g s := by
  have hmeasures : ∀ id, g.isFixed id = true → Measures g s id := by
    intro id hid
    obtain ⟨n, hn⟩ := h.numbered id (has_of_isFixed hid) hid (by simp)
    exact h.measures id n hn
  refine ⟨h.agree, hprops, fun id hop => ?_, fun id hid hop => ?_, hmeasures, h.floating⟩
  · obtain ⟨n, k, hn, hk, hnk⟩ := hmeasures id (isFixed_of_op (by rw [hop]; rfl))
    obtain rfl := hk.unique (longest_start hop)
    obtain rfl : n = 0 := Int64.toInt_inj.1 hnk
    exact hn
  · obtain ⟨n, k, hn, ⟨hpath, -⟩, hnk⟩ := hmeasures id hid
    refine ⟨n, hn, ?_, h.above id n hn hop⟩
    -- The predecessor on the longest path has a longest path that is shorter by one.
    cases hpath with
    | start hstart => exact absurd hstart hop
    | @step a _ j hpath hstep =>
        have ha := hg.mem_controlPredecessors.2 hstep.1
        obtain ⟨m, hm, hlt⟩ := h.above id n hn hop a ha
        obtain ⟨i, hi, hmi⟩ := (h.measures a m hm).longest hm
        have hle := hi.2 j hpath
        exact ⟨a, ha, m, hm, by omega⟩

/-- Numbering a consistent graph without numbers.  The loop ends.  It fails if control does not reach
    some fixed node that is no start, and otherwise if control runs in a circle that no start is on;
    otherwise starts get 0, every other fixed node one more than the largest number among its control
    predecessors, which is the length of the longest path to it from a start, and floating nodes none.
    The bound on the handles, which have 64 bits, keeps numbers from overflowing. -/
theorem orderFixed_longest {g : Graph} (hg : g.Consistent) (hsize : g.arena.size < 2 ^ 63)
    (hnone : ∀ id, (g.props id).has Props.sequence = false) :
    Sweeps g (g.ids.filter g.isFixed) (orderFixed g) ∧
      (¬ AllEntered g → ∃ label, (orderFixed g).result = .error (.missingSequence (.noPredecessor label))) ∧
      (AllEntered g → (∃ id, g.Circles id) → ∃ n label, (orderFixed g).result = .error (.cyclicControl n label)) ∧
      (AllEntered g → (∀ id, ¬ g.Circles id) → (orderFixed g).result = .ok () ∧ Measured g (orderFixed g).state) := by
  refine ⟨sweeps_orderFixed g, orderFixed_of_not_entered, fun hentered ⟨id, hcircle⟩ => ?_, fun hentered hcircle => ?_⟩
  · refine (orderFixed_cases hentered).resolve_left ?_
    rintro ⟨s, hdone⟩
    have horderable := orderable_of_orderFixed hg (fun id _ => hnone id) hdone
    exact ((orderable_iff hg).1 horderable).2 id hcircle
  · obtain ⟨s, hdone⟩ := orderFixed_of_orderable hg ((orderable_iff hg).2 ⟨hentered, hcircle⟩)
    rw [hdone]
    exact ⟨rfl, (measuring_of_orderFixed hg hsize hnone hdone).measured hg fun id key hkey =>
      get?_props_orderFixed hkey hdone id⟩

/-- Two nodes that only lead to each other. -/
example : (orderFixed (Graph.assemble [.start, .safepoint, .safepoint]
    [⟨1, 2, .control⟩, ⟨2, 1, .control⟩])).result = .error (.cyclicControl 2 ⟨1, .safepoint⟩) := by
  decide +kernel

/-- A merge that is declared before both of its predecessors, of which one is two steps from the
    start. -/
def lateArms : Graph :=
  Graph.assemble [.merge, .safepoint, .safepoint, .start, .arg]
    [⟨1, 0, .controlN 0⟩, ⟨3, 0, .controlN 1⟩, ⟨2, 1, .control⟩, ⟨3, 2, .control⟩]

/-- The merge waits for two sweeps; its number is the length of the longer way. -/
theorem orderFixed_lateArms_longest :
    lateArms.Consistent ∧ (orderFixed lateArms).result = .ok () ∧ Measured lateArms (orderFixed lateArms).state ∧
      sequence (orderFixed lateArms).state 0 = .ok 3 ∧ lateArms.Longest 0 3 := by
  have hconsistent : lateArms.Consistent := consistent_assemble (by decide)
  have hnone : ∀ id, (lateArms.props id).has Props.sequence = false := by
    intro id
    by_cases hid : lateArms.has id = true
    · have hids : ∀ id ∈ lateArms.ids, (lateArms.props id).has Props.sequence = false := by decide +kernel
      exact hids id (mem_ids.2 hid)
    · rw [props_eq_empty (by simpa using hid)]
      rfl
  have hentered : AllEntered lateArms := by
    intro id hfixed
    have hids : ∀ id ∈ lateArms.ids, lateArms.op id ≠ .start → lateArms.controlPredecessors id ≠ [] ∨
        lateArms.isFixed id = false := by decide +kernel
    intro hop
    refine (hids id (mem_ids.2 (has_of_isFixed hfixed)) hop).resolve_right ?_
    simp [hfixed]
  -- Control leads from higher handles to lower ones.
  have hfalls : ∀ {a b : NodeId}, TransGen lateArms.Advances a b → b < a := by
    have hstep : ∀ a ∈ lateArms.ids, ∀ b ∈ lateArms.controlSuccessors a, b < a := by decide +kernel
    intro a b hpath
    induction hpath with
    | single hb => exact hstep _ (mem_ids.2 hb.has) _ hb.1
    | tail _ hb ih =>
        have hlt := hstep _ (mem_ids.2 hb.has) _ hb.1
        exact Int.lt_trans hlt ih
  obtain ⟨-, -, -, hsucceeds⟩ := orderFixed_longest hconsistent (by decide +kernel) hnone
  obtain ⟨hok, hmeasured⟩ := hsucceeds hentered fun id hcircle => Int.lt_irrefl id (hfalls hcircle)
  have hthree : sequence (orderFixed lateArms).state 0 = .ok 3 := by decide +kernel
  obtain ⟨k, hk, hlength⟩ := (hmeasured.longest 0 (by decide +kernel)).longest hthree
  obtain rfl : k = 3 := by
    have hlit : (3 : Int64).toInt = 3 := by decide
    omega
  exact ⟨hconsistent, hok, hmeasured, hthree, hk⟩

end Schedule

end SeaOfNodes
