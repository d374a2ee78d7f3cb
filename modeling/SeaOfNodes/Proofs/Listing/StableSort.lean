/-
  SeaOfNodes.Proofs.Listing.StableSort

  Sorting loses nothing and makes nothing up: whatever the relation, the result is a
  rearrangement of what was given.  If the relation compares keys, the result ascends, and
  elements with the same key stay in the order they were given in: runs are sorted by
  insertion, and a merge of two runs cuts both at the middle of what they give together.
-/
import SeaOfNodes.Listing.StableSort
import Mathlib.Data.List.Perm.Basic

namespace SeaOfNodes.StableSort

variable {α : Type} (before : α → α → Bool)

theorem perm_insertBack (x : α) (xs : List α) : (insertBack before x xs).Perm (x :: xs) := by
  induction xs with
  | nil => exact .refl _
  | cons y rest ih =>
      rw [insertBack]
      split
      · exact (ih.cons y).trans (.swap x y rest)
      · exact .refl _

theorem perm_insertion (xs : List α) : (insertion before xs).Perm xs := by
  have hfold : ∀ sorted, (xs.foldl (fun sorted x => insertBack before x sorted) sorted).Perm (xs ++ sorted) := by
    induction xs with
    | nil => exact fun sorted => .refl sorted
    | cons x rest ih =>
        intro sorted
        have hinsert := (perm_insertBack before x sorted).append_left rest
        exact (ih _).trans (hinsert.trans List.perm_middle)
  have hnil := hfold []
  rw [List.append_nil] at hnil
  exact (List.reverse_perm _).trans hnil

theorem perm_flatten_runs (xs : List α) : (runs before xs).flatten.Perm xs := by
  fun_induction runs before xs with
  | case1 xs _ =>
      rw [List.flatten_singleton]
      exact perm_insertion before xs
  | case2 xs _ ih =>
      rw [List.flatten_cons]
      have hparts := (perm_insertion before (xs.take runLength)).append ih
      rwa [List.take_append_drop] at hparts

theorem perm_insertAt (x : α) (place : Nat) (xs : List α) : (insertAt x place xs).Perm (x :: xs) := by
  rw [insertAt]
  refine List.perm_middle.trans ?_
  rw [List.take_append_drop]

/-- Cutting both runs and merging the parts keeps everything: the parts of the one
    and of the other only change places. -/
theorem perm_merge (xs ys : List α) : (merge before xs ys).Perm (xs ++ ys) := by
  fun_induction merge before xs ys with
  | case1 ys _ => exact .refl _
  | case2 ys x rest hlen =>
      have hrest : rest = [] := by
        simpa using hlen
      rw [hrest]
      exact perm_insertAt x _ ys
  | case3 xs _ _ =>
      rw [List.append_nil]
  | case4 xs _ y rest hlen =>
      have hrest : rest = [] := by
        simpa using hlen
      rw [hrest]
      exact (perm_insertAt y _ xs).trans (List.perm_append_singleton y xs).symm
  | case5 xs ys _ _ half share ihLeft ihRight =>
      have hcut := ihLeft.append ihRight
      rw [List.append_assoc] at hcut
      refine hcut.trans ?_
      have hswap : (ys.take (half - share) ++ (xs.drop share ++ ys.drop (half - share))).Perm
          (xs.drop share ++ ys) := by
        conv_rhs => rw [← List.take_append_drop (half - share) ys]
        exact List.perm_append_comm_assoc _ _ _
      have hall := hswap.append_left (xs.take share)
      rwa [← List.append_assoc (xs.take share) (xs.drop share), List.take_append_drop] at hall

theorem perm_flatten_mergePairs (rs : List (List α)) : (mergePairs before rs).flatten.Perm rs.flatten := by
  fun_induction mergePairs before rs with
  | case1 a b rest ih =>
      rw [List.flatten_cons, List.flatten_cons, List.flatten_cons, ← List.append_assoc]
      exact (perm_merge before a b).append ih
  | case2 rest => exact .refl _

theorem perm_mergeAll (rs : List (List α)) : (mergeAll before rs).Perm rs.flatten := by
  fun_induction mergeAll before rs with
  | case1 => exact .refl _
  | case2 run => rw [List.flatten_singleton]
  | case3 a b rest ih => exact ih.trans (perm_flatten_mergePairs before (a :: b :: rest))

/-- The sorted list has the members of the given one, each as often. -/
theorem perm_sort (xs : List α) : (sort before xs).Perm xs :=
  (perm_mergeAll before _).trans (perm_flatten_runs before xs)

/-! ## Members keep their places

Whatever the relation, an element that is inserted moves none of the others, and a merge leaves
each run in the order it has. -/

theorem sublist_insertBack (x : α) (xs : List α) : xs.Sublist (insertBack before x xs) := by
  induction xs with
  | nil => exact List.nil_sublist _
  | cons y rest ih =>
      rw [insertBack]
      split
      · exact ih.cons_cons y
      · exact List.sublist_cons_self x _

theorem sublist_foldl_insertBack (xs sorted : List α) :
    sorted.Sublist (xs.foldl (fun sorted x => insertBack before x sorted) sorted) := by
  induction xs generalizing sorted with
  | nil => exact List.Sublist.refl sorted
  | cons x rest ih => exact (sublist_insertBack before x sorted).trans (ih _)

theorem sublist_insertAt (x : α) (place : Nat) (xs : List α) : xs.Sublist (insertAt x place xs) := by
  have hcut : (xs.take place ++ xs.drop place).Sublist (xs.take place ++ x :: xs.drop place) :=
    (List.sublist_cons_self x _).append_left _
  rwa [List.take_append_drop] at hcut

theorem mem_insertAt_self (x : α) (place : Nat) (xs : List α) : x ∈ insertAt x place xs := by
  simp [insertAt]

/-- Both runs are found in what they are merged to. -/
theorem sublist_merge (xs ys : List α) : xs.Sublist (merge before xs ys) ∧ ys.Sublist (merge before xs ys) := by
  fun_induction merge before xs ys with
  | case1 ys _ => exact ⟨List.nil_sublist _, List.Sublist.refl _⟩
  | case2 ys x rest hlen =>
      obtain rfl : rest = [] := by simpa using hlen
      exact ⟨List.singleton_sublist.2 (mem_insertAt_self x _ ys), sublist_insertAt x _ ys⟩
  | case3 xs _ _ => exact ⟨List.Sublist.refl _, List.nil_sublist _⟩
  | case4 xs _ y rest hlen =>
      obtain rfl : rest = [] := by simpa using hlen
      exact ⟨sublist_insertAt y _ xs, List.singleton_sublist.2 (mem_insertAt_self y _ xs)⟩
  | case5 xs ys _ _ half share ihLeft ihRight =>
      have hxs := ihLeft.1.append ihRight.1
      have hys := ihLeft.2.append ihRight.2
      rw [List.take_append_drop] at hxs hys
      exact ⟨hxs, hys⟩

theorem sublist_mergePairs {run : List α} {rs : List (List α)} (h : run ∈ rs) :
    ∃ merged ∈ mergePairs before rs, run.Sublist merged := by
  fun_induction mergePairs before rs with
  | case1 a b rest ih =>
      obtain ⟨hleft, hright⟩ := sublist_merge before a b
      rcases List.mem_cons.1 h with rfl | h
      · exact ⟨_, List.mem_cons_self, hleft⟩
      rcases List.mem_cons.1 h with rfl | h
      · exact ⟨_, List.mem_cons_self, hright⟩
      · obtain ⟨merged, hmem, hsub⟩ := ih h
        exact ⟨merged, List.mem_cons_of_mem _ hmem, hsub⟩
  | case2 rest => exact ⟨run, h, List.Sublist.refl run⟩

theorem sublist_mergeAll {run : List α} {rs : List (List α)} (h : run ∈ rs) :
    run.Sublist (mergeAll before rs) := by
  fun_induction mergeAll before rs generalizing run with
  | case1 => cases h
  | case2 only =>
      rw [List.mem_singleton.1 h]
  | case3 a b rest ih =>
      obtain ⟨merged, hmem, hsub⟩ := sublist_mergePairs before h
      exact hsub.trans (ih hmem)

/-- The runs are the given list cut into pieces, each of them sorted. -/
theorem insertion_mem_runs (k : Nat) {xs : List α} (h : (xs.drop (k * runLength)).take runLength ≠ []) :
    insertion before ((xs.drop (k * runLength)).take runLength) ∈ runs before xs := by
  induction k generalizing xs with
  | zero =>
      rw [Nat.zero_mul, List.drop_zero, runs]
      split
      case isTrue hshort => rw [List.take_of_length_le hshort]; exact List.mem_singleton_self _
      case isFalse hlong => exact List.mem_cons_self
  | succ k ih =>
      have hnext : xs.drop ((k + 1) * runLength) = (xs.drop runLength).drop (k * runLength) := by
        rw [List.drop_drop, Nat.succ_mul, Nat.add_comm]
      rw [hnext] at h ⊢
      rw [runs]
      split
      case isTrue hshort =>
        -- Nothing follows the first run.
        rw [List.drop_of_length_le hshort] at h
        simp at h
      case isFalse hlong => exact List.mem_cons_of_mem _ (ih h)

/-! ## Order

A relation may compare keys as they are for the members of a list and still go wrong
elsewhere, so what is asked of it is asked of the members. -/

section Order

variable {before : α → α → Bool} {key : α → Int}

/-- Among the members of a list the relation compares keys. -/
def Compares (before : α → α → Bool) (key : α → Int) (xs : List α) : Prop :=
  ∀ a ∈ xs, ∀ b ∈ xs, before a b = decide (key a < key b)

/-- A list is in ascending order of its keys. -/
def Ascends (key : α → Int) (xs : List α) : Prop := xs.Pairwise fun a b => key a ≤ key b

/-- The members with one key. -/
def withKey (key : α → Int) (k : Int) (xs : List α) : List α := xs.filter fun x => key x = k

/-- One list is another one in order: it ascends, and members with the same key are in the given order. -/
structure Orders (key : α → Int) (xs sorted : List α) : Prop where
  ascends : Ascends key sorted
  stable : ∀ k, withKey key k sorted = withKey key k xs

theorem mem_withKey_self (key : α → Int) {x : α} {xs : List α} : x ∈ withKey key (key x) xs ↔ x ∈ xs := by
  simp [withKey]

/-- A list in order has the members of the given one. -/
theorem Orders.mem_iff {xs sorted : List α} (h : Orders key xs sorted) {x : α} : x ∈ sorted ↔ x ∈ xs := by
  rw [← mem_withKey_self key, h.stable, mem_withKey_self key]

theorem Compares.mono {xs ys : List α} (h : Compares before key ys) (hsub : xs ⊆ ys) : Compares before key xs :=
  fun a ha b hb => h a (hsub ha) b (hsub hb)

theorem withKey_append (k : Int) (xs ys : List α) :
    withKey key k (xs ++ ys) = withKey key k xs ++ withKey key k ys :=
  List.filter_append xs ys

theorem withKey_cons (k : Int) (x : α) (xs : List α) :
    withKey key k (x :: xs) = if key x = k then x :: withKey key k xs else withKey key k xs := by
  simp [withKey, List.filter_cons]

theorem withKey_eq_nil {k : Int} {xs : List α} : withKey key k xs = [] ↔ ∀ x ∈ xs, key x ≠ k := by
  simp [withKey]

/-- Lists without a common key may change places. -/
theorem withKey_swap {xs ys : List α} (h : ∀ a ∈ xs, ∀ b ∈ ys, key b < key a) (k : Int) :
    withKey key k ys ++ withKey key k xs = withKey key k xs ++ withKey key k ys := by
  by_cases hnone : withKey key k xs = []
  · simp [hnone]
  · obtain ⟨a, ha⟩ := List.exists_mem_of_ne_nil _ hnone
    obtain ⟨ha, hak⟩ := List.mem_filter.1 ha
    have hnil : withKey key k ys = [] := withKey_eq_nil.2 fun b hb hbk => by
      have hless := h a ha b hb
      rw [hbk, of_decide_eq_true hak] at hless
      exact Int.lt_irrefl k hless
    simp [hnil]

/-- The elements that come first in order are in front. -/
theorem Orders.append {xs ys xs' ys' : List α} (hx : Orders key xs xs') (hy : Orders key ys ys')
    (hle : ∀ a ∈ xs', ∀ b ∈ ys', key a ≤ key b) : Orders key (xs ++ ys) (xs' ++ ys') where
  ascends := List.pairwise_append.2 ⟨hx.ascends, hy.ascends, hle⟩
  stable k := by rw [withKey_append, withKey_append, hx.stable, hy.stable]

/-! ## Inserting -/

/-- A new last element goes behind all that are not greater. -/
theorem Orders.insert_last {xs front back : List α} {x : α} (h : Orders key xs (front ++ back))
    (hfront : ∀ a ∈ front, key a ≤ key x) (hback : ∀ b ∈ back, key x < key b) :
    Orders key (xs ++ [x]) (front ++ x :: back) where
  ascends := by
    obtain ⟨hfronts, hbacks, hle⟩ := List.pairwise_append.1 h.ascends
    have hnext : (x :: back).Pairwise fun a b => key a ≤ key b :=
      List.pairwise_cons.2 ⟨fun b hb => Int.le_of_lt (hback b hb), hbacks⟩
    refine List.pairwise_append.2 ⟨hfronts, hnext, ?_⟩
    intro a ha b hb
    rcases List.mem_cons.1 hb with rfl | hb
    · exact hfront a ha
    · exact hle a ha b hb
  stable k := by
    have hsame := h.stable k
    rw [withKey_append] at hsame
    rw [withKey_append, withKey_append, ← hsame, withKey_cons]
    split
    · rename_i hk
      have hnil : withKey key k back = [] := withKey_eq_nil.2 fun b hb => by have := hback b hb; omega
      simp only [hnil, List.append_nil]
      simp [withKey, hk]
    · rename_i hk
      simp [withKey, hk]

/-- A new first element goes in front of all that are not smaller. -/
theorem Orders.insert_first {xs front back : List α} {x : α} (h : Orders key xs (front ++ back))
    (hfront : ∀ a ∈ front, key a < key x) (hback : ∀ b ∈ back, key x ≤ key b) :
    Orders key (x :: xs) (front ++ x :: back) where
  ascends := by
    obtain ⟨hfronts, hbacks, hle⟩ := List.pairwise_append.1 h.ascends
    refine List.pairwise_append.2 ⟨hfronts, List.pairwise_cons.2 ⟨hback, hbacks⟩, ?_⟩
    intro a ha b hb
    rcases List.mem_cons.1 hb with rfl | hb
    · exact Int.le_of_lt (hfront a ha)
    · exact hle a ha b hb
  stable k := by
    have hsame := h.stable k
    rw [withKey_append] at hsame
    rw [withKey_append, withKey_cons, withKey_cons, ← hsame]
    split
    · rename_i hk
      have hnil : withKey key k front = [] := withKey_eq_nil.2 fun a ha => by have := hfront a ha; omega
      rw [hnil, List.nil_append, List.nil_append]
    · rfl

/-- An element that is inserted into a list kept with the last one first goes behind all that are
    not greater and in front of the others. -/
def Inserts (before : α → α → Bool) (key : α → Int) (x : α) (zs : List α) : Prop :=
  ∃ after upTo, zs = after ++ upTo ∧ insertBack before x zs = after ++ x :: upTo ∧
    (∀ a ∈ after, key x < key a) ∧ ∀ a ∈ upTo, key a ≤ key x

/-- In a list in order, kept with the last one first, no member is greater than the first. -/
theorem Ascends.le_first {z : α} {rest : List α} (h : Ascends key (z :: rest).reverse) {y : α}
    (hy : y ∈ z :: rest) : key y ≤ key z := by
  rw [Ascends, List.reverse_cons, List.pairwise_append] at h
  rcases List.mem_cons.1 hy with rfl | hy
  · exact Int.le_refl _
  · exact h.2.2 y (List.mem_reverse.2 hy) z (List.mem_singleton_self z)

/-- An element that does not go before the last one stays behind it. -/
theorem inserts_of_not_before {x z : α} {rest : List α} (hbefore : before x z = false) (hle : key z ≤ key x)
    (hzs : Ascends key (z :: rest).reverse) : Inserts before key x (z :: rest) := by
  refine ⟨[], z :: rest, rfl, ?_, by simp, fun y hy => Int.le_trans (hzs.le_first hy) hle⟩
  rw [insertBack, if_neg (by simp [hbefore])]
  rfl

theorem inserts_of_compares {x : α} {zs : List α} (hcompares : ∀ z ∈ zs, before x z = decide (key x < key z))
    (hzs : Ascends key zs.reverse) : Inserts before key x zs := by
  induction zs with
  | nil => exact ⟨[], [], rfl, rfl, by simp, by simp⟩
  | cons y rest ih =>
      obtain ⟨hxy, hxrest⟩ := List.forall_mem_cons.1 hcompares
      by_cases hless : key x < key y
      · have hrest : Ascends key rest.reverse := by
          rw [Ascends, List.reverse_cons, List.pairwise_append] at hzs
          exact hzs.1
        obtain ⟨after, upTo, rfl, heq, hafter, hupTo⟩ := ih hxrest hrest
        refine ⟨y :: after, upTo, rfl, ?_, List.forall_mem_cons.2 ⟨hless, hafter⟩, hupTo⟩
        rw [insertBack, if_pos (by simp [hxy, hless]), heq]
        rfl
      · exact inserts_of_not_before (by simp [hxy, hless]) (Int.not_lt.1 hless) hzs

/-- If each element is inserted in its place into those before it in order, all come to be in order. -/
theorem orders_insertion_of_inserts {xs : List α} (h : ∀ done x todo sorted, xs = done ++ x :: todo →
    Orders key done sorted.reverse → Inserts before key x sorted) : Orders key xs (insertion before xs) := by
  -- What is inserted so far is kept in order, the last one first.
  have hfold : ∀ done todo sorted, xs = done ++ todo → Orders key done sorted.reverse →
      Orders key xs (todo.foldl (fun sorted x => insertBack before x sorted) sorted).reverse := by
    intro done todo
    induction todo generalizing done with
    | nil =>
        intro sorted hsplit hsorted
        rw [hsplit, List.append_nil]
        exact hsorted
    | cons x rest ih =>
        intro sorted hsplit hsorted
        obtain ⟨after, upTo, rfl, heq, hafter, hupTo⟩ := h done x rest sorted hsplit hsorted
        rw [List.foldl_cons]
        refine ih (done ++ [x]) _ (by simp [hsplit]) ?_
        rw [List.reverse_append] at hsorted
        rw [heq, List.reverse_append, List.reverse_cons, List.append_assoc]
        exact hsorted.insert_last (by simpa using hupTo) (by simpa using hafter)
  exact hfold [] xs [] rfl ⟨.nil, fun _ => rfl⟩

theorem orders_insertion {xs : List α} (hcompares : Compares before key xs) :
    Orders key xs (insertion before xs) := by
  refine orders_insertion_of_inserts fun done x todo sorted hsplit hsorted => ?_
  refine inserts_of_compares (fun z hz => hcompares x (by simp [hsplit]) z ?_) hsorted.ascends
  have hdone : z ∈ done := hsorted.mem_iff.1 (List.mem_reverse.2 hz)
  simp [hsplit, hdone]

/-! ## Merging -/

/-- If a test holds up to some place and fails from there on, halving finds the place. -/
theorem firstFailure_spec {test : Nat → Bool} {holds : Nat → Prop} {lo hi : Nat} (hle : lo ≤ hi)
    (htest : ∀ i, lo ≤ i → i < hi → (test i = true ↔ holds i))
    (hdown : ∀ i j, lo ≤ i → i ≤ j → j < hi → holds j → holds i) :
    lo ≤ firstFailure test lo hi ∧ firstFailure test lo hi ≤ hi ∧
      (∀ i, lo ≤ i → i < firstFailure test lo hi → holds i) ∧
      ∀ i, firstFailure test lo hi ≤ i → i < hi → ¬ holds i := by
  fun_induction firstFailure test lo hi with
  | case1 lo hi hlt hmid ih =>
      obtain ⟨hlower, hupper, hbelow, habove⟩ := ih (by omega) (fun i hi' => htest i (by omega))
        fun i j hi' => hdown i j (by omega)
      refine ⟨by omega, hupper, fun i hi' hless => ?_, habove⟩
      by_cases hside : i ≤ (lo + hi) / 2
      · exact hdown i _ hi' hside (by omega) ((htest _ (by omega) (by omega)).1 hmid)
      · exact hbelow i (by omega) hless
  | case2 lo hi hlt hmid ih =>
      obtain ⟨hlower, hupper, hbelow, habove⟩ := ih (by omega) (fun i hi' hless => htest i hi' (by omega))
        fun i j hi' hij hless => hdown i j hi' hij (by omega)
      refine ⟨hlower, by omega, hbelow, fun i hi' hless hholds => ?_⟩
      by_cases hside : i < (lo + hi) / 2
      · exact habove i hi' hside hholds
      · exact hmid ((htest _ (by omega) (by omega)).2 (hdown _ i (by omega) (by omega) hless hholds))
  | case3 lo hi hlt => exact ⟨Nat.le_refl _, hle, fun i hi' hless => by omega, fun i hi' hless => by omega⟩

/-- The place found in a list whose members pass a test up to some place cuts off those
    that pass. -/
theorem firstFailure_cuts {test : α → Bool} {ys : List α}
    (hdown : ys.Pairwise fun a b => test b = true → test a = true) {place : Nat}
    (hplace : firstFailure (fun i => (ys[i]?).any test) 0 ys.length = place) :
    (∀ a ∈ ys.take place, test a = true) ∧ ∀ b ∈ ys.drop place, test b = false := by
  have hmonotone : ∀ i j, 0 ≤ i → i ≤ j → j < ys.length → (ys[j]?).any test = true → (ys[i]?).any test = true := by
    intro i j _ hij hj hpass
    rcases Nat.lt_or_eq_of_le hij with hlt | rfl
    · rw [List.getElem?_eq_getElem hj, Option.any_some] at hpass
      rw [List.getElem?_eq_getElem (by omega), Option.any_some]
      exact List.pairwise_iff_getElem.1 hdown i j (by omega) hj hlt hpass
    · exact hpass
  obtain ⟨-, hle, hbelow, habove⟩ := firstFailure_spec (Nat.zero_le ys.length) (fun _ _ _ => Iff.rfl) hmonotone
  rw [hplace] at hle hbelow habove
  constructor
  · intro a ha
    obtain ⟨i, hi, rfl⟩ := List.mem_take_iff_getElem.1 ha
    have hpass := hbelow i (Nat.zero_le i) (by omega)
    rwa [List.getElem?_eq_getElem (by omega), Option.any_some] at hpass
  · intro b hb
    obtain ⟨i, hi, rfl⟩ := List.mem_drop_iff_getElem.1 hb
    have hfail := habove (place + i) (by omega) (by omega)
    rwa [List.getElem?_eq_getElem (by omega), Option.any_some, Bool.not_eq_true] at hfail

theorem orders_mergeLeft {x : α} {ys : List α} (hcompares : Compares before key (x :: ys)) (hys : Ascends key ys) :
    Orders key (x :: ys) (mergeLeft before x ys) := by
  have htest : ∀ y ∈ ys, before y x = decide (key y < key x) := fun y hy => hcompares y (by simp [hy]) x (by simp)
  have hdown : ys.Pairwise fun a b => before b x = true → before a x = true := by
    refine hys.imp_of_mem fun {a b} ha hb hle hless => ?_
    rw [htest b hb, decide_eq_true_eq] at hless
    rw [htest a ha, decide_eq_true_eq]
    exact Int.lt_of_le_of_lt hle hless
  rw [mergeLeft, insertAt]
  generalize hplace : firstFailure (fun i => (ys[i]?).any (before · x)) 0 ys.length = place
  obtain ⟨hfront, hback⟩ := firstFailure_cuts hdown hplace
  refine Orders.insert_first ⟨?_, fun k => ?_⟩ (fun a ha => ?_) fun b hb => ?_
  · rwa [List.take_append_drop]
  · rw [List.take_append_drop]
  · have ha' := hfront a ha
    rwa [htest a (List.mem_of_mem_take ha), decide_eq_true_eq] at ha'
  · have hb' := hback b hb
    rwa [htest b (List.mem_of_mem_drop hb), decide_eq_false_iff_not, Int.not_lt] at hb'

theorem orders_mergeRight {xs : List α} {y : α} (hcompares : Compares before key (y :: xs))
    (hxs : Ascends key xs) :
    Orders key (xs ++ [y]) (mergeRight before xs y) := by
  have htest : ∀ x ∈ xs, (!before y x) = decide (key x ≤ key y) := fun x hx => by
    rw [hcompares y (by simp) x (by simp [hx]), ← decide_not, decide_eq_decide]
    exact Int.not_lt
  have hdown : xs.Pairwise fun a b => (!before y b) = true → (!before y a) = true := by
    refine hxs.imp_of_mem fun {a b} ha hb hle hless => ?_
    rw [htest b hb, decide_eq_true_eq] at hless
    rw [htest a ha, decide_eq_true_eq]
    exact Int.le_trans hle hless
  rw [mergeRight, insertAt]
  generalize hplace : firstFailure (fun i => (xs[i]?).any (!before y ·)) 0 xs.length = place
  obtain ⟨hfront, hback⟩ := firstFailure_cuts hdown hplace
  refine Orders.insert_last ⟨?_, fun k => ?_⟩ (fun a ha => ?_) fun b hb => ?_
  · rwa [List.take_append_drop]
  · rw [List.take_append_drop]
  · have ha' := hfront a ha
    rwa [htest a (List.mem_of_mem_take ha), decide_eq_true_eq] at ha'
  · have hb' := hback b hb
    rwa [htest b (List.mem_of_mem_drop hb), decide_eq_false_iff_not, Int.not_le] at hb'

theorem Ascends.getElem_le {xs : List α} (h : Ascends key xs) {i j : Nat} (hij : i ≤ j) (hj : j < xs.length)
    (hi : i < xs.length) : key xs[i] ≤ key xs[j] := by
  rcases Nat.lt_or_eq_of_le hij with hlt | rfl
  · exact List.pairwise_iff_getElem.1 h i j hi hj hlt
  · exact Int.le_refl _

/-- A left element belongs in front of the right one that would be the last in the first
    half together with it. -/
def FitsBefore (key : α → Int) (half : Nat) (xs ys : List α) (i : Nat) : Prop :=
  ∃ x y, xs[i]? = some x ∧ ys[half - 1 - i]? = some y ∧ key x ≤ key y

theorem leftShare_finds {half : Nat} {xs ys : List α} (hcompares : Compares before key (xs ++ ys))
    (hxs : Ascends key xs) (hys : Ascends key ys) (hhalf : half ≤ xs.length + ys.length) {share : Nat}
    (hshare : leftShare before half xs ys = share) :
    half - ys.length ≤ share ∧ share ≤ min xs.length half ∧
      (∀ i, half - ys.length ≤ i → i < share → FitsBefore key half xs ys i) ∧
      ∀ i, share ≤ i → i < min xs.length half → ¬ FitsBefore key half xs ys i := by
  rw [← hshare, leftShare]
  refine firstFailure_spec (by omega) (fun i hi hless => ?_) fun i j hi hij hless hfits => ?_
  · have hx : i < xs.length := by omega
    have hy : half - 1 - i < ys.length := by omega
    rw [List.getElem?_eq_getElem hx, List.getElem?_eq_getElem hy]
    simp [FitsBefore, hx, hy, hcompares ys[half - 1 - i] (by simp) xs[i] (by simp)]
  · obtain ⟨x, y, hx, hy, hle⟩ := hfits
    obtain ⟨hj, rfl⟩ := List.getElem?_eq_some_iff.1 hx
    obtain ⟨hj', rfl⟩ := List.getElem?_eq_some_iff.1 hy
    have hi' : half - 1 - i < ys.length := by omega
    refine ⟨_, _, List.getElem?_eq_getElem (by omega), List.getElem?_eq_getElem hi', ?_⟩
    calc key xs[i] ≤ key xs[j] := hxs.getElem_le hij hj (by omega)
      _ ≤ key ys[half - 1 - j] := hle
      _ ≤ key ys[half - 1 - i] := hys.getElem_le (by omega) hi' hj'

/-- Both runs are cut so that what is before the cuts goes before what is behind them: a
    left element before any equal right one. -/
theorem leftShare_cuts {half : Nat} {xs ys : List α} (hcompares : Compares before key (xs ++ ys))
    (hxs : Ascends key xs) (hys : Ascends key ys) (hhalf : half ≤ xs.length + ys.length) {share : Nat}
    (hshare : leftShare before half xs ys = share) :
    (∀ a ∈ xs.take share, ∀ b ∈ ys.drop (half - share), key a ≤ key b) ∧
      ∀ a ∈ xs.drop share, ∀ b ∈ ys.take (half - share), key b < key a := by
  obtain ⟨hlo, hhi, hbelow, habove⟩ := leftShare_finds hcompares hxs hys hhalf hshare
  constructor
  · intro a ha b hb
    obtain ⟨i, hi, rfl⟩ := List.mem_take_iff_getElem.1 ha
    obtain ⟨j, hj, rfl⟩ := List.mem_drop_iff_getElem.1 hb
    obtain ⟨x, y, hx, hy, hle⟩ := hbelow (share - 1) (by omega) (by omega)
    obtain ⟨hx', rfl⟩ := List.getElem?_eq_some_iff.1 hx
    obtain ⟨hy', rfl⟩ := List.getElem?_eq_some_iff.1 hy
    calc key xs[i] ≤ key xs[share - 1] := hxs.getElem_le (by omega) hx' (by omega)
      _ ≤ key ys[half - 1 - (share - 1)] := hle
      _ ≤ key ys[half - share + j] := hys.getElem_le (by omega) (by omega) hy'
  · intro a ha b hb
    obtain ⟨i, hi, rfl⟩ := List.mem_drop_iff_getElem.1 ha
    obtain ⟨j, hj, rfl⟩ := List.mem_take_iff_getElem.1 hb
    have hx : share < xs.length := by omega
    have hy : half - 1 - share < ys.length := by omega
    have hless : key ys[half - 1 - share] < key xs[share] := by
      by_contra hnot
      refine habove share (Nat.le_refl _) (by omega)
        ⟨_, _, List.getElem?_eq_getElem hx, List.getElem?_eq_getElem hy, ?_⟩
      exact Int.not_lt.1 hnot
    calc key ys[j] ≤ key ys[half - 1 - share] := hys.getElem_le (by omega) hy (by omega)
      _ < key xs[share] := hless
      _ ≤ key xs[share + i] := hxs.getElem_le (by omega) (by omega) hx

/-- Two lists cut so that nothing behind the cuts belongs before them are in order when what lies
    before and what lies behind is: elements of one key never change places across the cuts. -/
theorem orders_of_cuts {xs ys left right : List α} {m n : Nat} (hxs : Ascends key xs) (hys : Ascends key ys)
    (hlower : ∀ a ∈ xs.take m, ∀ b ∈ ys.drop n, key a ≤ key b)
    (hupper : ∀ a ∈ xs.drop m, ∀ b ∈ ys.take n, key b < key a)
    (hpermLeft : left.Perm (xs.take m ++ ys.take n)) (hpermRight : right.Perm (xs.drop m ++ ys.drop n))
    (hleft : Orders key (xs.take m ++ ys.take n) left) (hright : Orders key (xs.drop m ++ ys.drop n) right) :
    Orders key (xs ++ ys) (left ++ right) := by
  have hxcut : (xs.take m ++ xs.drop m).Pairwise fun a b => key a ≤ key b := by rwa [List.take_append_drop]
  have hycut : (ys.take n ++ ys.drop n).Pairwise fun a b => key a ≤ key b := by rwa [List.take_append_drop]
  have hboth := hleft.append hright fun a ha b hb => by
    rw [hpermLeft.mem_iff, List.mem_append] at ha
    rw [hpermRight.mem_iff, List.mem_append] at hb
    rcases ha with ha | ha <;> rcases hb with hb | hb
    · exact (List.pairwise_append.1 hxcut).2.2 a ha b hb
    · exact hlower a ha b hb
    · exact Int.le_of_lt (hupper b hb a ha)
    · exact (List.pairwise_append.1 hycut).2.2 a ha b hb
  refine ⟨hboth.ascends, fun k => (hboth.stable k).trans ?_⟩
  -- No key is both behind the left cut and before the right one.
  have hswap := withKey_swap hupper k
  calc withKey key k ((xs.take m ++ ys.take n) ++ (xs.drop m ++ ys.drop n))
      = withKey key k (xs.take m) ++ (withKey key k (ys.take n) ++ withKey key k (xs.drop m))
          ++ withKey key k (ys.drop n) := by simp only [withKey_append, List.append_assoc]
    _ = withKey key k (xs.take m) ++ (withKey key k (xs.drop m) ++ withKey key k (ys.take n))
          ++ withKey key k (ys.drop n) := by rw [hswap]
    _ = withKey key k ((xs.take m ++ xs.drop m) ++ (ys.take n ++ ys.drop n)) := by
          simp only [withKey_append, List.append_assoc]
    _ = withKey key k (xs ++ ys) := by rw [List.take_append_drop, List.take_append_drop]

theorem orders_merge {xs ys : List α} (hcompares : Compares before key (xs ++ ys)) (hxs : Ascends key xs)
    (hys : Ascends key ys) : Orders key (xs ++ ys) (merge before xs ys) := by
  fun_induction merge before xs ys with
  | case1 ys _ => exact ⟨hys, fun _ => rfl⟩
  | case2 ys x rest hlen =>
      obtain rfl : rest = [] := by simpa using hlen
      exact orders_mergeLeft hcompares hys
  | case3 xs _ _ =>
      rw [List.append_nil]
      exact ⟨hxs, fun _ => rfl⟩
  | case4 xs _ y rest hlen =>
      obtain rfl : rest = [] := by simpa using hlen
      exact orders_mergeRight (hcompares.mono fun x hx => by simpa [or_comm] using hx) hxs
  | case5 xs ys _ _ half share ihLeft ihRight =>
      obtain ⟨hlower, hupper⟩ := leftShare_cuts hcompares hxs hys (by omega : half ≤ _) rfl
      have hsubset : ∀ {as bs : List α}, as ⊆ xs → bs ⊆ ys → Compares before key (as ++ bs) := fun has hbs =>
        hcompares.mono (List.append_subset.2
          ⟨List.Subset.trans has (List.subset_append_left xs ys),
            List.Subset.trans hbs (List.subset_append_right xs ys)⟩)
      have hleft := ihLeft (hsubset (List.take_subset ..) (List.take_subset ..))
        (hxs.sublist (List.take_sublist ..)) (hys.sublist (List.take_sublist ..))
      have hright := ihRight (hsubset (List.drop_subset ..) (List.drop_subset ..))
        (hxs.sublist (List.drop_sublist ..)) (hys.sublist (List.drop_sublist ..))
      exact orders_of_cuts hxs hys hlower hupper (perm_merge before _ _) (perm_merge before _ _) hleft hright

/-! ## Runs -/

/-- Runs are kept in order, and what is in them as a whole is kept stable. -/
structure RunsOrder (key : α → Int) (xs : List α) (rs : List (List α)) : Prop where
  ascend : ∀ run ∈ rs, Ascends key run
  stable : ∀ k, withKey key k rs.flatten = withKey key k xs

theorem runsOrder_runs {xs : List α} (hcompares : Compares before key xs) : RunsOrder key xs (runs before xs) := by
  fun_induction runs before xs with
  | case1 xs _ =>
      have hrun := orders_insertion hcompares
      exact ⟨by simpa using hrun.ascends, by simpa using hrun.stable⟩
  | case2 xs _ ih =>
      have hrun := orders_insertion (hcompares.mono (List.take_subset runLength xs))
      obtain ⟨hascend, hstable⟩ := ih (hcompares.mono (List.drop_subset runLength xs))
      refine ⟨by simpa using ⟨hrun.ascends, hascend⟩, fun k => ?_⟩
      rw [List.flatten_cons, withKey_append, hrun.stable, hstable, ← withKey_append, List.take_append_drop]

theorem runsOrder_mergePairs {rs : List (List α)} (hcompares : Compares before key rs.flatten)
    (hascend : ∀ run ∈ rs, Ascends key run) : RunsOrder key rs.flatten (mergePairs before rs) := by
  fun_induction mergePairs before rs with
  | case1 a b rest ih =>
      rw [List.flatten_cons, List.flatten_cons, ← List.append_assoc] at hcompares ⊢
      have hmerged := orders_merge (hcompares.mono (List.subset_append_left ..)) (hascend a (by simp))
        (hascend b (by simp))
      obtain ⟨hrest, hstable⟩ := ih (hcompares.mono (List.subset_append_right ..))
        fun run hrun => hascend run (by simp [hrun])
      refine ⟨by simpa using ⟨hmerged.ascends, hrest⟩, fun k => ?_⟩
      rw [List.flatten_cons, withKey_append, hmerged.stable, hstable, ← withKey_append]
  | case2 rest => exact ⟨hascend, fun _ => rfl⟩

theorem orders_mergeAll {rs : List (List α)} (hcompares : Compares before key rs.flatten)
    (hascend : ∀ run ∈ rs, Ascends key run) : Orders key rs.flatten (mergeAll before rs) := by
  fun_induction mergeAll before rs with
  | case1 => exact ⟨.nil, fun _ => rfl⟩
  | case2 run => exact ⟨hascend run (by simp), fun k => by rw [List.flatten_singleton]⟩
  | case3 a b rest ih =>
      have hpairs := runsOrder_mergePairs hcompares hascend
      have hmembers := (perm_flatten_mergePairs before (a :: b :: rest)).subset
      have hall := ih (hcompares.mono hmembers) hpairs.ascend
      exact ⟨hall.ascends, fun k => (hall.stable k).trans (hpairs.stable k)⟩

/-- If the relation compares keys, the elements are sorted by key, and those with the same
    key stay in the given order. -/
theorem orders_sort {xs : List α} (hcompares : Compares before key xs) : Orders key xs (sort before xs) := by
  have hruns := runsOrder_runs hcompares
  have hall := orders_mergeAll (hcompares.mono (perm_flatten_runs before xs).subset) hruns.ascend
  exact ⟨hall.ascends, fun k => (hall.stable k).trans (hruns.stable k)⟩

end Order

end SeaOfNodes.StableSort
