/-
  SeaOfNodes.Schedule.Closure

  The set of what can be reached by following steps: a walk over a stack of
  what is still to be visited, which skips what was visited before.
-/

namespace SeaOfNodes.Schedule

variable {α : Type} [DecidableEq α]

/-- Visit the stack, pushing the successors of everything visited for the first
    time.  The answer is everything visited, the last first. -/
def visitAll (next : α → List α) : (fuel : Nat) → (stack visited : List α) → List α
  | 0, _, visited => visited
  | _, [], visited => visited
  | fuel + 1, x :: stack, visited =>
    if x ∈ visited then visitAll next fuel stack visited
    else visitAll next fuel (next x ++ stack) (x :: visited)

/-- Whether a walk from the stack meets a goal. -/
def meets (next : α → List α) (goal : α) : (fuel : Nat) → (stack visited : List α) → Bool
  | 0, _, _ => false
  | _, [], _ => false
  | fuel + 1, x :: stack, visited =>
    if x = goal then true
    else if x ∈ visited then meets next goal fuel stack visited
    else meets next goal fuel (next x ++ stack) (x :: visited)

end SeaOfNodes.Schedule
