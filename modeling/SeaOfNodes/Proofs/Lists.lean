/-
  SeaOfNodes.Proofs.Lists

  Lists without repetitions.  A key that occurs once is looked up with its value, and a
  sorted list ascends strictly once the neighbours that repeat each other are dropped.
-/
import Mathlib.Data.List.Basic
import Mathlib.Order.Basic

namespace SeaOfNodes

/-- Looking up one of distinct keys finds its value. -/
theorem lookup_eq_some_iff_mem {α β : Type} [DecidableEq α] {l : List (α × β)}
    (h : (l.map Prod.fst).Nodup) {key : α} {value : β} : l.lookup key = some value ↔ (key, value) ∈ l := by
  induction l with
  | nil => simp
  | cons entry rest ih =>
      obtain ⟨k, v⟩ := entry
      obtain ⟨hk, hrest⟩ := List.nodup_cons.1 h
      rw [List.lookup_cons]
      by_cases hkey : key = k
      · subst hkey
        have hnot : (key, value) ∉ rest := fun hmem => hk (List.mem_map.2 ⟨_, hmem, rfl⟩)
        simp [hnot, eq_comm]
      · have hbeq : (key == k) = false := by simpa using hkey
        rw [hbeq]
        simp [hkey, ih hrest]

/-- What is left of a list was in it. -/
theorem mem_of_mem_without {α : Type} {x a : α} {front back : List α} (h : x ∈ front ++ back) :
    x ∈ front ++ a :: back :=
  ((List.sublist_cons_self a back).append_left front).subset h

/-- What is not the head of a list stands in its tail. -/
theorem split_tail_of_ne {α : Type} {a b : α} {l before after : List α} (h : a :: l = before ++ b :: after)
    (hne : b ≠ a) : ∃ front, before = a :: front ∧ l = front ++ b :: after := by
  rcases List.cons_eq_append_iff.1 h with ⟨-, hhead⟩ | htail
  · exact absurd (List.cons.inj hhead).1 hne
  · exact htail

section EraseReps

variable {α : Type} [DecidableEq α]

theorem eraseRepsBy_loop_eq (a : α) (rest acc : List α) :
    List.eraseRepsBy.loop (· == ·) a rest acc = acc.reverse ++ (a :: rest).eraseReps := by
  induction rest generalizing a acc with
  | nil => simp [List.eraseReps, List.eraseRepsBy, List.eraseRepsBy.loop]
  | cons b rest ih =>
      rw [List.eraseReps, List.eraseRepsBy, List.eraseRepsBy.loop, List.eraseRepsBy.loop]
      cases hab : a == b with
      | true => simp only [ih, List.reverse_nil, List.nil_append]
      | false => simp [ih]

theorem eraseReps_singleton (a : α) : [a].eraseReps = [a] := rfl

/-- Of two equal neighbours one is dropped. -/
theorem eraseReps_cons_cons (a b : α) (rest : List α) :
    (a :: b :: rest).eraseReps = if a = b then (b :: rest).eraseReps else a :: (b :: rest).eraseReps := by
  rw [List.eraseReps, List.eraseRepsBy, List.eraseRepsBy.loop]
  by_cases hab : a = b
  · subst hab
    simp [eraseRepsBy_loop_eq]
  · have hbeq : (a == b) = false := by simpa using hab
    simp [hbeq, hab, eraseRepsBy_loop_eq]

theorem mem_eraseReps {x : α} {l : List α} : x ∈ l.eraseReps ↔ x ∈ l := by
  induction l with
  | nil => rfl
  | cons a rest ih =>
      cases rest with
      | nil => rw [eraseReps_singleton]
      | cons b rest =>
          rw [eraseReps_cons_cons]
          split
          · rename_i hab
            subst hab
            rw [ih]
            simp
          · rw [List.mem_cons, ih, ← List.mem_cons]

theorem eraseReps_replicate (n : Nat) (a : α) : (List.replicate (n + 1) a).eraseReps = [a] := by
  induction n with
  | zero => exact eraseReps_singleton a
  | succ n ih => rw [List.replicate_succ, List.replicate_succ, eraseReps_cons_cons, if_pos rfl, ← List.replicate_succ, ih]

end EraseReps

end SeaOfNodes
