/-
  SeaOfNodes.Proofs.Schedule.Walk

  Walks over a stack without a bound on their steps.  They end on every finite graph, and
  what they find does not depend on the order in which successors are put on the stack:
  everything that can be reached is visited once, and a goal is met if it can be reached.
-/
import SeaOfNodes.Proofs.Schedule.Closure

namespace SeaOfNodes.Schedule

open Relation

variable {α : Type}

/-- Visiting the stack, for as many steps as it takes, ends with these visited. -/
inductive Walks (next : α → List α) : (stack visited reached : List α) → Prop
  | done {visited : List α} : Walks next [] visited visited
  | again {x : α} {stack visited reached : List α} (hseen : x ∈ visited) (h : Walks next stack visited reached) :
      Walks next (x :: stack) visited reached
  | visit {x : α} {stack visited reached : List α} (hnew : x ∉ visited)
      (h : Walks next (next x ++ stack) (x :: visited) reached) : Walks next (x :: stack) visited reached

/-- Visiting the stack until the goal is met, for as many steps as it takes, ends with this answer.
    The goal is looked for before it is asked what was visited. -/
inductive Searches (next : α → List α) (goal : α) : (stack visited : List α) → (found : Bool) → Prop
  | lost {visited : List α} : Searches next goal [] visited false
  | met {stack visited : List α} : Searches next goal (goal :: stack) visited true
  | again {x : α} {stack visited : List α} {found : Bool} (hne : x ≠ goal) (hseen : x ∈ visited)
      (h : Searches next goal stack visited found) : Searches next goal (x :: stack) visited found
  | visit {x : α} {stack visited : List α} {found : Bool} (hne : x ≠ goal) (hnew : x ∉ visited)
      (h : Searches next goal (next x ++ stack) (x :: visited) found) : Searches next goal (x :: stack) visited found

/-- Which successors a node has does not depend on their order. -/
theorem steps_eq_of_perm {next next' : α → List α} (h : ∀ x, (next' x).Perm (next x)) :
    (fun a b => b ∈ next' a) = fun a b => b ∈ next a := by
  funext a b
  exact propext (h a).mem_iff

section Steps

variable {next : α → List α} {goal : α} {stack visited reached : List α} {found : Bool}

/-- A walk ends in one way. -/
theorem Walks.unique (h : Walks next stack visited reached) {reached' : List α}
    (h' : Walks next stack visited reached') : reached' = reached := by
  induction h with
  | done =>
      cases h'
      rfl
  | again hseen _ ih =>
      cases h' with
      | again _ hrest => exact ih hrest
      | visit hnew _ => exact absurd hseen hnew
  | visit hnew _ ih =>
      cases h' with
      | again hseen _ => exact absurd hseen hnew
      | visit _ hrest => exact ih hrest

theorem Walks.nodup (h : Walks next stack visited reached) (hvisited : visited.Nodup) : reached.Nodup := by
  induction h with
  | done => exact hvisited
  | again _ _ ih => exact ih hvisited
  | visit hnew _ ih => exact ih (List.nodup_cons.2 ⟨hnew, hvisited⟩)

/-- A search ends in one way. -/
theorem Searches.unique (h : Searches next goal stack visited found) {found' : Bool}
    (h' : Searches next goal stack visited found') : found' = found := by
  induction h with
  | lost =>
      cases h'
      rfl
  | met =>
      cases h' with
      | met => rfl
      | again hne _ _ => exact absurd rfl hne
      | visit hne _ _ => exact absurd rfl hne
  | again hne hseen _ ih =>
      cases h' with
      | met => exact absurd rfl hne
      | again _ _ hrest => exact ih hrest
      | visit _ hnew _ => exact absurd hseen hnew
  | visit hne hnew _ ih =>
      cases h' with
      | met => exact absurd rfl hne
      | again _ hseen _ => exact absurd hseen hnew
      | visit _ _ hrest => exact ih hrest

end Steps

section Bounded

variable [DecidableEq α] {next : α → List α} {members : List α}

/-- The bound of the walk does not cut it off. -/
theorem walks_visitAll (hmembers : ∀ x, next x ≠ [] → x ∈ members) (fuel : Nat) (stack visited : List α)
    (hfuel : stack.length + owed next visited members ≤ fuel) :
    Walks next stack visited (visitAll next fuel stack visited) := by
  fun_induction visitAll next fuel stack visited with
  | case1 stack visited =>
      obtain rfl : stack = [] := List.length_eq_zero_iff.1 (by omega)
      exact .done
  | case2 fuel visited => exact .done
  | case3 fuel x stack visited hseen ih =>
      exact .again hseen (ih (by simp only [List.length_cons] at hfuel; omega))
  | case4 fuel x stack visited hnew ih => exact .visit hnew (ih (owed_visit_le hmembers hfuel hnew))

/-- The bound of the search does not cut it off. -/
theorem searches_meets (hmembers : ∀ x, next x ≠ [] → x ∈ members) (goal : α) (fuel : Nat) (stack visited : List α)
    (hfuel : stack.length + owed next visited members ≤ fuel) :
    Searches next goal stack visited (meets next goal fuel stack visited) := by
  fun_induction meets next goal fuel stack visited with
  | case1 stack visited =>
      obtain rfl : stack = [] := List.length_eq_zero_iff.1 (by omega)
      exact .lost
  | case2 fuel visited => exact .lost
  | case3 fuel stack visited => exact .met
  | case4 fuel x stack visited hne hseen ih =>
      exact .again hne hseen (ih (by simp only [List.length_cons] at hfuel; omega))
  | case5 fuel x stack visited hne hnew ih => exact .visit hne hnew (ih (owed_visit_le hmembers hfuel hnew))

/-- A walk ends, and visits everything that can be reached once. -/
theorem exists_walks (hmembers : ∀ x, next x ≠ [] → x ∈ members) (root : α) :
    ∃ reached, Walks next [root] [] reached ∧ reached.Nodup ∧
      ∀ x, x ∈ reached ↔ ReflTransGen (fun a b => b ∈ next a) root x := by
  have hwalks := walks_visitAll hmembers (owed next [] members + 1) [root] [] (by simp [Nat.add_comm])
  exact ⟨_, hwalks, hwalks.nodup List.nodup_nil, fun x => mem_visitAll_iff hmembers (Nat.lt_succ_self _)⟩

/-- A search ends, and its answer is whether the goal can be reached. -/
theorem searches_iff (hmembers : ∀ x, next x ≠ [] → x ∈ members) {root goal : α} {found : Bool} :
    Searches next goal [root] [] found ↔ (found = true ↔ ReflTransGen (fun a b => b ∈ next a) root goal) := by
  have hsearches := searches_meets hmembers goal (owed next [] members + 1) [root] [] (by simp [Nat.add_comm])
  have hmeets : meets next goal (owed next [] members + 1) [root] [] = true ↔
      goal ∈ visitAll next (owed next [] members + 1) [root] [] := meets_eq_true_iff _ _ _ List.not_mem_nil
  rw [mem_visitAll_iff hmembers (Nat.lt_succ_self _)] at hmeets
  rw [← hmeets, ← Bool.eq_iff_iff]
  exact ⟨hsearches.unique, fun hfound => hfound ▸ hsearches⟩

end Bounded

end SeaOfNodes.Schedule
