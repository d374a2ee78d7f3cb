/-
  SeaOfNodes.Listing.StableSort

  Stable sorting in runs.  Runs of twenty are sorted by insertion, then
  neighbouring runs are merged until one is left.  The order in which elements
  are compared is part of the definition: a relation that is no order, as a
  wrapping difference can be, still has one outcome.
-/

namespace SeaOfNodes.StableSort

variable {α : Type} (before : α → α → Bool)

/-! ## Runs -/

/-- Insert an element into a list kept with the last one first: it moves past
    those it goes before. -/
def insertBack (x : α) : List α → List α
  | [] => [x]
  | y :: rest => if before x y then y :: insertBack x rest else x :: y :: rest

/-- Sort by inserting the elements one after the other. -/
def insertion (xs : List α) : List α :=
  (xs.foldl (fun sorted x => insertBack before x sorted) []).reverse

/-- The number of elements that are sorted by insertion. -/
def runLength : Nat := 20

/-- Cut a list into sorted runs, the last one shorter. -/
def runs (xs : List α) : List (List α) :=
  if xs.length ≤ runLength then [insertion before xs]
  else insertion before (xs.take runLength) :: runs (xs.drop runLength)
termination_by xs.length
decreasing_by simp [runLength] at *; omega

/-! ## Merging -/

/-- The first place from `lo` on and below `hi` where a test fails, and `hi` if
    there is none, found by halving: the test is to hold up to some place and to
    fail from there on. -/
def firstFailure (test : Nat → Bool) (lo hi : Nat) : Nat :=
  if lo < hi then
    if test ((lo + hi) / 2) then firstFailure test ((lo + hi) / 2 + 1) hi
    else firstFailure test lo ((lo + hi) / 2)
  else lo
termination_by hi - lo
decreasing_by all_goals omega

/-- Put an element in front of the elements from a place on. -/
def insertAt (x : α) (place : Nat) (xs : List α) : List α := xs.take place ++ x :: xs.drop place

/-- How many elements of the left run are among the first `half` of both runs
    together. -/
def leftShare (half : Nat) (xs ys : List α) : Nat :=
  firstFailure (fun i =>
    match xs[i]?, ys[half - 1 - i]? with
    | some x, some y => !before y x
    | _, _ => false) (half - ys.length) (min xs.length half)

/-- Put the one element of the left run into the right run, in front of those
    equal to it. -/
def mergeLeft (x : α) (ys : List α) : List α :=
  insertAt x (firstFailure (fun i => (ys[i]?).any (before · x)) 0 ys.length) ys

/-- Put the one element of the right run into the left run, behind those equal
    to it. -/
def mergeRight (xs : List α) (y : α) : List α :=
  insertAt y (firstFailure (fun i => (xs[i]?).any (!before y ·)) 0 xs.length) xs

/-- Merge two sorted runs: find what goes into the first half, and merge each
    half.  Of equal elements those of the left run come first. -/
def merge (xs ys : List α) : List α :=
  if xs.length ≤ 1 then
    match xs with
    | [] => ys
    | x :: _ => mergeLeft before x ys
  else if ys.length ≤ 1 then
    match ys with
    | [] => xs
    | y :: _ => mergeRight before xs y
  else
    let half := (xs.length + ys.length) / 2
    let share := leftShare before half xs ys
    merge (xs.take share) (ys.take (half - share)) ++ merge (xs.drop share) (ys.drop (half - share))
termination_by xs.length + ys.length
decreasing_by all_goals simp only [List.length_take, List.length_drop]; omega

/-- Merge neighbouring runs; a last one without a neighbour stays. -/
def mergePairs : List (List α) → List (List α)
  | a :: b :: rest => merge before a b :: mergePairs rest
  | rest => rest

/-- Merging neighbours makes no more runs. -/
theorem length_mergePairs_le (rs : List (List α)) : (mergePairs before rs).length ≤ rs.length := by
  fun_induction mergePairs before rs with
  | case1 a b rest ih => simp only [List.length_cons]; omega
  | case2 rest => exact Nat.le_refl _

/-- Merge runs until one is left. -/
def mergeAll : List (List α) → List α
  | [] => []
  | [run] => run
  | a :: b :: rest => mergeAll (mergePairs before (a :: b :: rest))
termination_by rs => rs.length
decreasing_by
  have := length_mergePairs_le before rest
  simp only [mergePairs, List.length_cons]
  omega

/-- The elements in order, equal ones in the given order. -/
def sort (xs : List α) : List α := mergeAll before (runs before xs)

end SeaOfNodes.StableSort
