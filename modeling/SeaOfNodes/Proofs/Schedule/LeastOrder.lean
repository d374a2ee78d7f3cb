/-
  SeaOfNodes.Proofs.Schedule.LeastOrder

  Which order the members of a block are given.  An order is legal when it begins
  with the first node, ends with what ends the block, and has every member after
  its inputs from the block.  Placing a member never makes another one wait, so a
  member that may come next can be moved to the front of any legal order of the
  rest.  Hence taking the lowest such member each time runs into no dead end, and
  the order it builds is the least legal one.  All blocks can be chained exactly if
  each has a legal order and no two of them share a node.
-/
import Mathlib.Data.List.Permutation
import SeaOfNodes.Proofs.Schedule.BlockClosure
import SeaOfNodes.Proofs.Schedule.BlockOrder

namespace SeaOfNodes.Schedule

/-! ## Legal orders -/

/-- An order of the members of a block that respects how the block begins, how it
    ends and what its members read. -/
structure LegalOrder (g : Graph) (first : NodeId) (members order : List NodeId) : Prop where
  perm : order.Perm members
  head : order.head? = some first
  endsLast : ∀ id ∈ members, id ≠ first → g.op id = .branch ∨ g.op id = .finish ∨ g.op id = .merge →
    order.getLast? = some id
  inputsBefore : ∀ id ∈ members, id ≠ first → ∀ e ∈ g.inputs id, e.role.name ≠ .localSchedule →
    e.source ∈ members → Precedes order e.source id
  firstFree : ∀ e ∈ g.inputs first, e.source ∈ members → e.source ≠ first →
    e.role.name = .localSchedule ∨ e.role.name = .globalSchedule

section Continues

variable {g : Graph} {first id : NodeId} {members placed placed' order : List NodeId}

theorem isChainable_iff : isChainable g first members placed id = true ↔
    ∀ e ∈ g.inputs id, e.role.name = .localSchedule ∨ (id = first ∧ e.role.name = .globalSchedule) ∨
      e.source ∉ members ∨ e.source ∈ placed := by
  simp [isChainable, or_assoc]

theorem isChainable_mono (hsub : ∀ x ∈ placed, x ∈ placed') (h : isChainable g first members placed id = true) :
    isChainable g first members placed' id = true := by
  rw [isChainable_iff] at h ⊢
  exact fun e he => (h e he).imp_right fun h => h.imp_right fun h => h.imp_right (hsub e.source)

/-- A member may come next: its inputs are placed, and so many members remain that
    it may be the last. -/
structure MayFollow (g : Graph) (first : NodeId) (members placed : List NodeId) (remaining : Nat) (id : NodeId) : Prop where
  ready : isChainable g first members placed id = true
  last : endsBlock g first id = true → remaining ≤ 1

/-- An order in which the members that remain may follow those that are placed. -/
def Continues (g : Graph) (first : NodeId) (members : List NodeId) : (placed : List NodeId) → List NodeId → Prop
  | _, [] => True
  | placed, id :: rest =>
    isChainable g first members placed id = true ∧ (endsBlock g first id = true → rest = []) ∧
      Continues g first members (id :: placed) rest

theorem Continues.mayFollow {rest : List NodeId} (h : Continues g first members placed (id :: rest)) :
    MayFollow g first members placed (rest.length + 1) id := by
  refine ⟨h.1, fun hends => ?_⟩
  rw [h.2.1 hends]
  exact Nat.le_refl 1

theorem Continues.mono (h : Continues g first members placed order) (hsub : ∀ x ∈ placed, x ∈ placed') :
    Continues g first members placed' order := by
  induction order generalizing placed placed' with
  | nil => trivial
  | cons id rest ih =>
      obtain ⟨hready, hlast, hrest⟩ := h
      refine ⟨isChainable_mono hsub hready, hlast, ih hrest ?_⟩
      exact List.forall_mem_cons.2 ⟨List.mem_cons_self, fun x hx => List.mem_cons_of_mem id (hsub x hx)⟩

/-- What may come next in some order may come first in the others, too. -/
theorem Continues.move_to_front (h : Continues g first members placed order) (hid : id ∈ order)
    (hnext : MayFollow g first members placed order.length id) :
    Continues g first members placed (id :: order.erase id) := by
  induction order generalizing placed with
  | nil => cases hid
  | cons x rest ih =>
      obtain ⟨hx, hxlast, hrest⟩ := h
      rcases eq_or_ne x id with rfl | hne
      · rw [List.erase_cons_head]
        exact ⟨hx, hxlast, hrest⟩
      have hmem : id ∈ rest := (List.mem_cons.1 hid).resolve_left hne.symm
      have hpos : 0 < rest.length := List.length_pos_of_mem hmem
      obtain ⟨hready, hlast⟩ := hnext
      -- The rest has `id` in front by induction; `x` changes places with it.
      obtain ⟨-, -, htail⟩ := ih hrest hmem
        ⟨isChainable_mono (fun y => List.mem_cons_of_mem x) hready, fun hends => Nat.le_of_lt (hlast hends)⟩
      have hswapped : ∀ y ∈ id :: x :: placed, y ∈ x :: id :: placed := fun y hy => by
        simpa [or_left_comm] using hy
      rw [List.erase_cons_tail (by simpa using hne)]
      refine ⟨hready, fun hends => ?_, isChainable_mono (fun y => List.mem_cons_of_mem id) hx, fun hends => ?_,
        htail.mono hswapped⟩
      · have hlen := hlast hends
        rw [List.length_cons] at hlen
        omega
      · rw [hxlast hends] at hmem
        cases hmem

/-- Place by place: each member may follow those before it, and what ends the block
    has none behind it. -/
theorem continues_iff : Continues g first members placed order ↔
    ∀ before id after, order = before ++ id :: after →
      isChainable g first members (before.reverse ++ placed) id = true ∧
        (endsBlock g first id = true → after = []) := by
  induction order generalizing placed with
  | nil => simp [Continues]
  | cons x rest ih =>
      rw [Continues, ih]
      constructor
      · rintro ⟨hready, hlast, hrest⟩ before id after hsplit
        rcases List.cons_eq_append_iff.1 hsplit with ⟨rfl, hfront⟩ | ⟨before, rfl, htail⟩
        · obtain ⟨rfl, rfl⟩ := List.cons.inj hfront
          exact ⟨hready, hlast⟩
        · simpa using hrest before id after htail
      · intro h
        obtain ⟨hready, hlast⟩ := h [] x rest rfl
        refine ⟨hready, hlast, fun before id after hsplit => ?_⟩
        simpa using h (x :: before) id after (by rw [hsplit]; rfl)

end Continues

/-! ## Legal orders place by place -/

theorem mem_before_of_precedes {chain before after : List NodeId} {a b : NodeId}
    (hsplit : chain = before ++ b :: after) (h : Precedes chain a b) : a ∈ before := by
  subst hsplit
  by_contra ha
  have hb : (before ++ b :: after).idxOf b ≤ before.length := by
    by_cases hmem : b ∈ before
    · rw [List.idxOf_append_of_mem hmem]
      exact List.idxOf_le_length
    · rw [List.idxOf_append_of_notMem hmem, List.idxOf_cons_self]
      exact Nat.le_refl _
  rw [Precedes, List.idxOf_append_of_notMem ha] at h
  omega

theorem endsBlock_iff {g : Graph} {first id : NodeId} (hne : id ≠ first) : endsBlock g first id = true ↔
    g.op id = .branch ∨ g.op id = .finish ∨ g.op id = .merge := by
  simp [endsBlock, isOtherMerge, hne, or_assoc]

section LegalOrder

variable {g : Graph} {first : NodeId} {members : List NodeId} (hnodup : members.Nodup) (hfirst : first ∈ members)
include hnodup hfirst

theorem perm_cons_iff {rest : List NodeId} :
    (first :: rest).Perm members ↔ rest.Perm (members.filter (· ≠ first)) := by
  have herase : members.filter (· ≠ first) = members.erase first := by
    rw [hnodup.erase_eq_filter]
    refine List.filter_congr fun id _ => ?_
    by_cases hid : id = first <;> simp [hid]
  rw [herase]
  exact List.cons_perm_iff_perm_erase.trans (and_iff_right hfirst)

omit hfirst in
/-- In a legal order each member finds what it waits for in front of it. -/
theorem LegalOrder.continues {rest : List NodeId} (h : LegalOrder g first members (first :: rest)) :
    Continues g first members [first] rest := by
  have hrest : (first :: rest).Nodup := h.perm.nodup_iff.2 hnodup
  refine continues_iff.2 fun before id after hsplit => ?_
  have hid : id ∈ members := h.perm.subset (by simp [hsplit])
  have hne : id ≠ first := by
    rintro rfl
    exact (List.nodup_cons.1 hrest).1 (by simp [hsplit])
  have hwhole : first :: rest = (first :: before) ++ id :: after := by rw [hsplit]; rfl
  refine ⟨isChainable_iff.2 fun e he => ?_, fun hends => ?_⟩
  · by_cases hname : e.role.name = .localSchedule
    · exact .inl hname
    by_cases hsource : e.source ∈ members
    · have hbefore := mem_before_of_precedes hwhole (h.inputsBefore id hid hne e he hname hsource)
      refine .inr (.inr (.inr ?_))
      simpa [or_comm] using hbefore
    · exact .inr (.inr (.inl hsource))
  · -- The last node is found once, so nothing is behind it.
    have hlast := h.endsLast id hid hne ((endsBlock_iff hne).1 hends)
    rw [hwhole] at hlast hrest
    cases after with
    | nil => rfl
    | cons x after =>
        rw [List.getLast?_append_cons, List.getLast?_cons_cons] at hlast
        exact absurd (List.mem_of_getLast? hlast) (List.nodup_cons.1 (List.nodup_append.1 hrest).2.1).1

omit hnodup hfirst in
theorem LegalOrder.firstReady {order : List NodeId} (h : LegalOrder g first members order) :
    isChainable g first members [first] first = true := by
  refine isChainable_iff.2 fun e he => ?_
  by_cases hsource : e.source ∈ members
  · by_cases heq : e.source = first
    · simp [heq]
    · exact (h.firstFree e he hsource heq).imp_right fun hname => .inl ⟨rfl, hname⟩
  · exact .inr (.inr (.inl hsource))

omit hfirst in
theorem legalOrder_of_continues {rest : List NodeId} (hperm : (first :: rest).Perm members)
    (hready : isChainable g first members [first] first = true) (hcontinues : Continues g first members [first] rest) :
    LegalOrder g first members (first :: rest) := by
  have hrest : (first :: rest).Nodup := hperm.nodup_iff.2 hnodup
  have hplace : ∀ id ∈ members, id ≠ first → ∃ before after, rest = before ++ id :: after := fun id hid hne =>
    List.append_of_mem ((List.mem_cons.1 (hperm.mem_iff.2 hid)).resolve_left hne)
  refine ⟨hperm, rfl, fun id hid hne hop => ?_, fun id hid hne e he hname hsource => ?_, fun e he hsource hne => ?_⟩
  · -- What ends the block has nothing behind it.
    obtain ⟨before, after, hsplit⟩ := hplace id hid hne
    obtain rfl := (continues_iff.1 hcontinues before id after hsplit).2 ((endsBlock_iff hne).2 hop)
    rw [hsplit, ← List.cons_append, List.getLast?_append_cons]
    rfl
  · -- What is chained before a member is the first node and what stands between them.
    obtain ⟨before, after, hsplit⟩ := hplace id hid hne
    have hedge := isChainable_iff.1 (continues_iff.1 hcontinues before id after hsplit).1 e he
    have hbefore : e.source ∈ first :: before := by
      simpa [hname, hne, hsource, or_comm] using hedge
    have hchain : first :: rest = (first :: before) ++ id :: after := by
      rw [hsplit]
      rfl
    exact precedes_of_mem_before hrest hchain hbefore
  · have hedge := isChainable_iff.1 hready e he
    simpa [hsource, hne] using hedge

/-- An order is legal when the first node waits for no member and the others may
    follow it. -/
theorem legalOrder_iff {rest : List NodeId} : LegalOrder g first members (first :: rest) ↔
    rest.Perm (members.filter (· ≠ first)) ∧ isChainable g first members [first] first = true ∧
      Continues g first members [first] rest := by
  rw [← perm_cons_iff hnodup hfirst]
  exact ⟨fun h => ⟨h.perm, h.firstReady, h.continues hnodup⟩, fun ⟨hperm, hready, hcontinues⟩ =>
    legalOrder_of_continues hnodup hperm hready hcontinues⟩

end LegalOrder

/-! ## The lowest member that may come next -/

/-- The first member of an ascending list that passes a test is the least one. -/
theorem le_of_find? {pending : List NodeId} (hasc : pending.Pairwise (· < ·)) {passes : NodeId → Bool} {id other : NodeId}
    (hfind : pending.find? passes = some id) (hother : other ∈ pending) (hpasses : passes other = true) : id ≤ other := by
  obtain ⟨-, before, after, rfl, hbefore⟩ := List.find?_eq_some_iff_append.1 hfind
  rcases List.mem_append.1 hother with hmem | hmem
  · have hfails := hbefore other hmem
    rw [hpasses] at hfails
    cases hfails
  · rcases List.mem_cons.1 hmem with rfl | hmem
    · exact Int.le_refl _
    · exact Int.le_of_lt ((List.pairwise_cons.1 (List.pairwise_append.1 hasc).2.1).1 other hmem)

section Greedy

variable {g s : Graph} {first tail : NodeId} {members placed pending : List NodeId} {last? : Option NodeId} {steps : Nat}

/-- The test of the loop says which members may come next. -/
theorem eligible_iff (hagree : Graph.Agree Graph.unchained g s) {id : NodeId}
    (hlast : some id = last? ↔ endsBlock g first id = true) :
    (!(decide (some id = last?) && decide (1 < pending.length)) && isChainable s first members placed id) = true ↔
      MayFollow g first members placed pending.length id := by
  rw [isChainable_agree hagree]
  simp only [Bool.and_eq_true, Bool.not_eq_true', Bool.and_eq_false_iff, decide_eq_false_iff_not, Nat.not_lt, hlast,
    ← imp_iff_not_or]
  exact ⟨fun h => ⟨h.2, h.1⟩, fun h => ⟨h.last, h.ready⟩⟩

/-- When some member may come next, the loop finds the lowest one that may. -/
theorem find_eligible (hagree : Graph.Agree Graph.unchained g s)
    (hlast : ∀ id ∈ pending, some id = last? ↔ endsBlock g first id = true) (hasc : pending.Pairwise (· < ·))
    {y : NodeId} (hy : y ∈ pending) (hnext : MayFollow g first members placed pending.length y) :
    ∃ id ∈ pending, pending.find? (fun id => !(decide (some id = last?) && decide (1 < pending.length)) &&
        isChainable s first members placed id) = some id ∧
      MayFollow g first members placed pending.length id ∧
      ∀ other ∈ pending, MayFollow g first members placed pending.length other → id ≤ other := by
  cases hfind : pending.find? fun id => !(decide (some id = last?) && decide (1 < pending.length)) &&
      isChainable s first members placed id with
  | none => exact absurd ((eligible_iff hagree (hlast y hy)).2 hnext) (List.find?_eq_none.1 hfind y hy)
  | some id =>
      have hid : id ∈ pending := List.mem_of_find?_eq_some hfind
      have hpasses := List.find?_some hfind
      exact ⟨id, hid, rfl, (eligible_iff hagree (hlast id hid)).1 hpasses, fun other hother hmay =>
        le_of_find? hasc hfind hother ((eligible_iff hagree (hlast other hother)).2 hmay)⟩

/-- A step between live nodes links the member that is found. -/
theorem extendChain_succ {x id : NodeId} {others : List NodeId}
    (hfind : (x :: others).find? (fun id => !(decide (some id = last?) && decide (1 < (x :: others).length)) &&
      isChainable s first members placed id) = some id)
    (htail : s.has tail = true) (hlive : s.has id = true) :
    extendChain first members last? (steps + 1) s placed tail (x :: others) =
      extendChain first members last? steps (s.linkEdge (chainEdge tail id)) (id :: placed) id
        ((x :: others).erase id) := by
  have hconnect : s.connect (chainEdge tail id) = .ok (s.linkEdge (chainEdge tail id)) :=
    Graph.connect_eq_ok.2 ⟨htail, hlive, rfl⟩
  rw [extendChain]
  simp only [hfind, hconnect]

/-- Whatever order is taken begins with a member that may come next. -/
theorem Continues.head_mayFollow {id : NodeId} {rest : List NodeId} (h : Continues g first members placed (id :: rest))
    (hperm : (id :: rest).Perm pending) : id ∈ pending ∧ MayFollow g first members placed pending.length id :=
  ⟨hperm.subset List.mem_cons_self, by rw [← hperm.length_eq]; exact h.mayFollow⟩

/-- If the members that remain can be put in order at all, they are linked in the
    least order. -/
theorem extendChain_least (hagree : Graph.Agree Graph.unchained g s)
    (hlast : ∀ id ∈ pending, some id = last? ↔ endsBlock g first id = true) (hasc : pending.Pairwise (· < ·))
    (htail : s.has tail = true) (hlive : ∀ id ∈ pending, s.has id = true) (hsteps : pending.length ≤ steps)
    {order : List NodeId} (hperm : order.Perm pending) (horder : Continues g first members placed order) :
    ∃ least, least.Perm pending ∧ Continues g first members placed least ∧
      extendChain first members last? steps s placed tail pending = .done (s.linkAll (chainEdges tail least)) () ∧
      ∀ other, other.Perm pending → Continues g first members placed other →
        other = least ∨ List.Lex (· < ·) least other := by
  induction steps generalizing s placed tail pending order with
  | zero =>
      obtain rfl : pending = [] := List.length_eq_zero_iff.1 (Nat.le_zero.1 hsteps)
      exact ⟨[], .refl _, trivial, rfl, fun other hother _ => .inl hother.eq_nil⟩
  | succ steps ih =>
      cases pending with
      | nil => exact ⟨[], .refl _, trivial, rfl, fun other hother _ => .inl hother.eq_nil⟩
      | cons x others =>
          obtain ⟨y, rest, rfl⟩ : ∃ y rest, order = y :: rest :=
            List.exists_cons_of_ne_nil fun hnil => by simp [hnil] at hperm
          -- The given order begins with a member that may come next, so one is found.
          obtain ⟨hy, hynext⟩ := horder.head_mayFollow hperm
          obtain ⟨id, hid, hfind, hnext, hlowest⟩ := find_eligible hagree hlast hasc hy hynext
          rw [extendChain_succ hfind htail (hlive id hid)]
          -- The member that is taken could have come first in the given order, too.
          obtain ⟨-, -, hrest⟩ := horder.move_to_front (hperm.mem_iff.2 hid) (by rwa [hperm.length_eq])
          have herase : ((x :: others).erase id).length = others.length := by
            rw [List.length_erase_of_mem hid, List.length_cons, Nat.add_sub_cancel]
          have hsubset : ∀ y ∈ (x :: others).erase id, y ∈ x :: others := fun y hy => List.mem_of_mem_erase hy
          have hlinked : ∀ y ∈ x :: others, (s.linkEdge (chainEdge tail id)).has y = true := fun y hy => by
            rw [Graph.has_linkEdge]
            exact hlive y hy
          obtain ⟨least, hleast, hcontinues, hrun, hminimal⟩ :=
            ih (hagree.trans (Graph.agree_linkEdge (e := chainEdge tail id) htail (hlive id hid) rfl))
              (fun y hy => hlast y (hsubset y hy)) (hasc.sublist List.erase_sublist) (hlinked id hid)
              (fun y hy => hlinked y (hsubset y hy)) (herase.trans_le (Nat.le_of_succ_le_succ hsteps))
              (hperm.erase id) hrest
          refine ⟨id :: least, (hleast.cons id).trans (List.perm_cons_erase hid).symm,
            ⟨hnext.ready, fun hends => ?_, hcontinues⟩, hrun, fun other hother hlegal => ?_⟩
          · have hone := hnext.last hends
            rw [← List.length_eq_zero_iff, hleast.length_eq, herase]
            rw [List.length_cons] at hone
            omega
          · -- Another order begins with the same member or with a higher one.
            cases other with
            | nil => exact absurd hother.length_eq (by simp)
            | cons y rest =>
                obtain ⟨hy, hynext⟩ := hlegal.head_mayFollow hother
                rcases Int.lt_or_eq_of_le (hlowest y hy hynext) with hlt | rfl
                · exact .inr (.rel hlt)
                · have hsame := hminimal rest (List.Perm.cons_inv (hother.trans (List.perm_cons_erase hid))) hlegal.2.2
                  exact hsame.imp (congrArg (id :: ·)) .cons

end Greedy

/-! ## What ends a block -/

/-- A block that can be put in order has one end at most. -/
theorem LegalOrder.terminator {g : Graph} {first : NodeId} {members order : List NodeId}
    (h : LegalOrder g first members order) (hnodup : members.Nodup) :
    ∃ last?, terminator g first members = .ok last? := by
  have hends : ∀ id ∈ members.filter fun id => id ≠ first && endsBlock g first id, order.getLast? = some id := by
    intro id hid
    obtain ⟨hid, hboth⟩ := List.mem_filter.1 hid
    obtain ⟨hne, hends⟩ := Bool.and_eq_true_iff.1 hboth
    have hne : id ≠ first := of_decide_eq_true hne
    exact h.endsLast id hid hne ((endsBlock_iff hne).1 hends)
  have hfilter := hnodup.filter fun id => id ≠ first && endsBlock g first id
  unfold Schedule.terminator
  split
  · exact ⟨none, rfl⟩
  · exact ⟨some _, rfl⟩
  · rename_i id other rest hmore
    rw [hmore] at hends hfilter
    have hid := hends id List.mem_cons_self
    rw [hends other (by simp)] at hid
    cases hid
    simp at hfilter

/-! ## One block -/

section Block

variable {g : Graph} {first : NodeId} {members : List NodeId} (hfirst : first ∈ members)
  (hlive : ∀ id ∈ members, g.has id = true) (hasc : members.Pairwise (· < ·))
include hfirst hlive hasc

theorem chainBlock_of_legalOrder {order : List NodeId} (h : LegalOrder g first members order) :
    ∃ rest, LegalOrder g first members (first :: rest) ∧
      chainBlock g first members = .done (g.linkAll (chainEdges first rest)) () ∧
      ∀ other, LegalOrder g first members other →
        other = first :: rest ∨ List.Lex (· < ·) (first :: rest) other := by
  have hnodup : members.Nodup := hasc.imp fun hlt => Int.ne_of_lt hlt
  have hpending : ∀ id ∈ members.filter (· ≠ first), id ∈ members ∧ id ≠ first := by simp
  obtain ⟨last?, hlast⟩ := h.terminator hnodup
  obtain ⟨rest, rfl⟩ : ∃ rest, order = first :: rest := List.head?_eq_some_iff.1 h.head
  obtain ⟨hperm, hready, hcontinues⟩ := (legalOrder_iff hnodup hfirst).1 h
  have hends : ∀ id ∈ members.filter (· ≠ first), some id = last? ↔ endsBlock g first id = true := fun id hid =>
    terminator_eq_ok hlast (hpending id hid).1 (hpending id hid).2
  obtain ⟨least, hleast, hlegal, hrun, hminimal⟩ := extendChain_least (.refl _ _) hends (hasc.filter _)
    (hlive first hfirst) (fun id hid => hlive id (hpending id hid).1) (Nat.le_refl _) hperm hcontinues
  refine ⟨least, (legalOrder_iff hnodup hfirst).2 ⟨hleast, hready, hlegal⟩, ?_, fun other hother => ?_⟩
  · rw [chainBlock, hlast]
    simpa [hready] using hrun
  · obtain ⟨rest, rfl⟩ : ∃ rest, other = first :: rest := List.head?_eq_some_iff.1 hother.head
    obtain ⟨hperm, -, hcontinues⟩ := (legalOrder_iff hnodup hfirst).1 hother
    exact (hminimal rest hperm hcontinues).imp (congrArg (first :: ·)) .cons

omit hlive in
theorem legalOrder_of_chainBlock {s : Graph} (h : chainBlock g first members = .done s ()) :
    ∃ order, LegalOrder g first members order := by
  have hnodup : members.Nodup := hasc.imp fun hlt => Int.ne_of_lt hlt
  obtain ⟨last?, hlast, hready, hrun⟩ := chainBlock_eq_done h
  obtain ⟨order, hperm, -, -, hall⟩ := extendChain_done (.refl _ _) (Nat.le_refl _) hrun
  refine ⟨first :: order, (legalOrder_iff hnodup hfirst).2
    ⟨hperm, hready, continues_iff.2 fun before id after hsplit => ?_⟩⟩
  have hid : id ∈ members.filter (· ≠ first) := hperm.subset (by simp [hsplit])
  obtain ⟨hmember, hne⟩ := List.mem_filter.1 hid
  obtain ⟨hchainable, hlastid⟩ := hall before id after hsplit
  exact ⟨hchainable, fun hends => hlastid ((terminator_eq_ok hlast hmember (of_decide_eq_true hne)).2 hends)⟩

/-- The members of a block are chained when a legal order of them exists, and then in
    the least one. -/
theorem chainBlock_least :
    ((∃ s, chainBlock g first members = .done s ()) ↔ ∃ order, LegalOrder g first members order) ∧
      ∀ s, chainBlock g first members = .done s () → ∃ rest, LegalOrder g first members (first :: rest) ∧
        s = g.linkAll (chainEdges first rest) ∧
        ∀ other, LegalOrder g first members other →
          other = first :: rest ∨ List.Lex (· < ·) (first :: rest) other := by
  refine ⟨⟨?_, ?_⟩, ?_⟩
  · rintro ⟨s, h⟩
    exact legalOrder_of_chainBlock hfirst hasc h
  · rintro ⟨order, h⟩
    obtain ⟨rest, -, hrun, -⟩ := chainBlock_of_legalOrder hfirst hlive hasc h
    exact ⟨_, hrun⟩
  · intro s h
    obtain ⟨order, horder⟩ := legalOrder_of_chainBlock hfirst hasc h
    obtain ⟨rest, hlegal, hrun, hminimal⟩ := chainBlock_of_legalOrder hfirst hlive hasc horder
    rw [h] at hrun
    exact ⟨rest, hlegal, congrArg Outcome.state hrun, hminimal⟩

end Block

/-- A block whose end has the lowest handle after the start, and a trace that reads an
    argument with a higher one. -/
def lateArgument : Graph :=
  Graph.assemble [.start, .finish, .trace, .arg, .arg]
    [⟨0, 2, .control⟩, ⟨2, 1, .control⟩, ⟨3, 2, .value⟩]

/-- The trace waits for its argument and the end for everything; the other argument
    could stand anywhere between and comes when it is the lowest left. -/
theorem chainBlock_lateArgument_least :
    chainBlock lateArgument 0 [0, 1, 2, 3, 4] = .done (lateArgument.linkAll (chainEdges 0 [3, 2, 4, 1])) () ∧
      LegalOrder lateArgument 0 [0, 1, 2, 3, 4] [0, 3, 2, 4, 1] ∧
      LegalOrder lateArgument 0 [0, 1, 2, 3, 4] [0, 4, 3, 2, 1] ∧
      ∀ other, LegalOrder lateArgument 0 [0, 1, 2, 3, 4] other →
        other = [0, 3, 2, 4, 1] ∨ List.Lex (· < ·) [0, 3, 2, 4, 1] other := by
  have hlegal : ∀ order ∈ [[0, 3, 2, 4, 1], [0, 4, 3, 2, 1]], LegalOrder lateArgument 0 [0, 1, 2, 3, 4] order := by
    have hperm : ∀ order ∈ ([[0, 3, 2, 4, 1], [0, 4, 3, 2, 1]] : List (List NodeId)),
        order.Perm [0, 1, 2, 3, 4] := by decide
    have hbefore : ∀ order ∈ ([[0, 3, 2, 4, 1], [0, 4, 3, 2, 1]] : List (List NodeId)),
        ∀ id ∈ ([0, 1, 2, 3, 4] : List NodeId), id ≠ 0 → ∀ e ∈ lateArgument.inputs id,
          e.role.name ≠ .localSchedule → e.source ∈ [0, 1, 2, 3, 4] → order.idxOf e.source < order.idxOf id := by decide
    intro order horder
    refine ⟨hperm order horder, ?_, ?_, hbefore order horder, by decide⟩
    · revert order
      decide
    · revert order
      decide
  obtain ⟨hiff, hleast⟩ := @chainBlock_least lateArgument 0 [0, 1, 2, 3, 4] (by decide) (by decide)
    (by decide)
  obtain ⟨s, hs⟩ := hiff.2 ⟨_, hlegal _ List.mem_cons_self⟩
  obtain ⟨rest, hrest, rfl, hminimal⟩ := hleast s hs
  -- No other order of the members begins as early and has the trace after its argument.
  obtain rfl : rest = [3, 2, 4, 1] := by
    have hperm : rest ∈ ([1, 2, 3, 4] : List NodeId).permutations' :=
      List.mem_permutations'.2 (List.Perm.cons_inv hrest.perm)
    have honly : ∀ l ∈ ([1, 2, 3, 4] : List NodeId).permutations',
        [0, 3, 2, 4, 1] = 0 :: l ∨ List.Lex (· < ·) (0 :: l) [0, 3, 2, 4, 1] →
        (0 :: l).idxOf 3 < (0 :: l).idxOf 2 → (0 :: l).getLast? = some 1 → l = [3, 2, 4, 1] := by decide +kernel
    exact honly rest hperm (hminimal _ (hlegal _ List.mem_cons_self))
      (hrest.inputsBefore 2 (by decide) (by decide) ⟨3, 2, .value⟩ (by decide) (by decide) (by decide))
      (hrest.endsLast 1 (by decide) (by decide) (by decide))
  exact ⟨hs, hrest, hlegal _ (by simp), hminimal⟩

/-! ## All blocks -/

/-- The chains that are there already do not count. -/
theorem LegalOrder.agree {g s : Graph} (hagree : Graph.Agree Graph.unchained g s) {first : NodeId}
    {members order : List NodeId} (h : LegalOrder g first members order) : LegalOrder s first members order := by
  have hold : ∀ {id : NodeId} {e : Edge}, e ∈ s.inputs id → e.role.name ≠ .localSchedule → e ∈ g.inputs id :=
    fun he hname => (hagree.mem_inputs_iff (by simp [Graph.unchained, hname])).1 he
  refine ⟨h.perm, h.head, fun id hid hne hop => ?_, fun id hid hne e he hname hsource =>
    h.inputsBefore id hid hne e (hold he hname) hname hsource, fun e he hsource hne => ?_⟩
  · rw [hagree.op] at hop
    exact h.endsLast id hid hne hop
  · by_cases hname : e.role.name = .localSchedule
    · exact .inl hname
    · exact h.firstFree e (hold he hname) hsource hne

/-- Members that nobody owns can be claimed, and then they are owned. -/
theorem exists_claim {g : Graph} {first : NodeId} {owners : List (NodeId × NodeId)} {members : List NodeId}
    (hnodup : members.Nodup)
    (hfree : ∀ id ∈ members, isOtherMerge g first id = false → owners.lookup id = none) :
    ∃ owners', claim g first owners members = .ok owners' ∧ ∀ id, owners.lookup id = none →
      (id ∈ members → isOtherMerge g first id = true) → owners'.lookup id = none := by
  induction members generalizing owners with
  | nil => exact ⟨owners, rfl, fun id hid _ => hid⟩
  | cons x rest ih =>
      obtain ⟨hx, hnodup⟩ := List.nodup_cons.1 hnodup
      rw [claim]
      cases hmerge : isOtherMerge g first x with
      | true =>
          obtain ⟨owners', hclaim, hkept⟩ := ih hnodup fun id hid => hfree id (List.mem_cons_of_mem x hid)
          exact ⟨owners', by simpa using hclaim, fun id hid hother => hkept id hid fun hmem =>
            hother (List.mem_cons_of_mem x hmem)⟩
      | false =>
          have hnew : ∀ id, id ≠ x → owners.lookup id = none → ((x, first) :: owners).lookup id = none := by
            intro id hne hid
            rw [List.lookup_cons, beq_false_of_ne hne]
            exact hid
          have hrest : ∀ id ∈ rest, isOtherMerge g first id = false → ((x, first) :: owners).lookup id = none :=
            fun id hid hother => hnew id (fun heq => hx (heq ▸ hid)) (hfree id (List.mem_cons_of_mem x hid) hother)
          obtain ⟨owners', hclaim, hkept⟩ := ih hnodup hrest
          refine ⟨owners', ?_, fun id hid hother => hkept id (hnew id ?_ hid) fun hmem =>
            hother (List.mem_cons_of_mem x hmem)⟩
          · simp [hfree x List.mem_cons_self hmerge, hclaim]
          · rintro rfl
            rw [hother List.mem_cons_self] at hmerge
            cases hmerge

/-- Blocks that share no node are chained if each of them can be put in order. -/
theorem chainBlocks_of_legalOrder {g : Graph} {c : Chaining} {firsts : List NodeId}
    (hagree : Graph.Agree Graph.unchained g c.graph) (hlive : ∀ first ∈ firsts, g.has first = true)
    (horder : ∀ first ∈ firsts, ∃ order, LegalOrder g first (blockMembers g first) order)
    (hdisjoint : firsts.Pairwise (Disjoint g))
    (hfree : ∀ first ∈ firsts, ∀ id ∈ blockMembers g first, isOtherMerge g first id = false →
      c.owners.lookup id = none) : ∃ c', chainBlocks c firsts = .done c' () := by
  induction firsts generalizing c with
  | nil => exact ⟨c, rfl⟩
  | cons first rest ih =>
      obtain ⟨hapart, hdisjoint⟩ := List.pairwise_cons.1 hdisjoint
      obtain ⟨order, hlegal⟩ := horder first List.mem_cons_self
      have hunowned : ∀ id ∈ blockMembers g first, isOtherMerge c.graph first id = false →
          c.owners.lookup id = none := fun id hid hother =>
        hfree first List.mem_cons_self id hid (by rwa [isOtherMerge_agree hagree] at hother)
      obtain ⟨owners, hclaim, hkept⟩ := exists_claim (nodup_blockMembers g first) hunowned
      obtain ⟨chain, -, hchain, -⟩ := chainBlock_of_legalOrder
        (mem_blockMembers.2 ⟨hlive first List.mem_cons_self, .refl⟩)
        (fun id hid => by rw [hagree.has]; exact (mem_blockMembers.1 hid).1) (pairwise_blockMembers g first)
        (hlegal.agree hagree)
      obtain ⟨_, -, hlinkable, hlinked⟩ := chainBlock_done hagree hchain
      have hlink := hagree.trans (agree_link_chain hlinkable fun e he => role_of_mem_chainEdges he)
      rw [← hlinked] at hlink
      -- The members of the blocks that follow are still nobody's, for they are apart from this one's.
      obtain ⟨c', hrest⟩ := ih (c := ⟨_, owners, c.blocks ++ [⟨first, (blockMembers g first).length⟩]⟩) hlink
        (fun f hf => hlive f (List.mem_cons_of_mem first hf)) (fun f hf => horder f (List.mem_cons_of_mem first hf))
        hdisjoint fun f hf id hid hother => hkept id (hfree f (List.mem_cons_of_mem first hf) id hid hother) fun hmem => by
          rw [isOtherMerge_agree hagree]
          refine (hapart f hf id hmem hid).resolve_right ?_
          rw [hother]
          exact Bool.false_ne_true
      refine ⟨c', ?_⟩
      rw [chainBlocks]
      simp only [blockMembers_agree hagree, hclaim, hchain, Outcome.done]
      exact hrest

/-- Chaining succeeds exactly if no two blocks share a node and each can be put in order. -/
theorem chainAll_iff {g : Graph} : (∃ c, chainAll g = .done c ()) ↔
    (∀ first ∈ blockFirsts g, ∃ order, LegalOrder g first (blockMembers g first) order) ∧
      (blockFirsts g).Pairwise (Disjoint g) := by
  constructor
  · rintro ⟨c, h⟩
    obtain ⟨order, hblocks⟩ := chainAll_done h
    refine ⟨fun first hfirst => ?_, hblocks.disjoint⟩
    obtain ⟨hperm, hready, hall, hends⟩ := hblocks.block first hfirst
    exact ⟨first :: order first, (legalOrder_iff (nodup_blockMembers g first) (first_mem_blockMembers hfirst)).2
      ⟨hperm, hready, continues_iff.2 fun before id after hsplit =>
        ⟨hall before id after hsplit, hends before id after hsplit⟩⟩⟩
  · rintro ⟨horder, hdisjoint⟩
    exact chainBlocks_of_legalOrder (.refl _ g) (fun first hfirst => (mem_blockFirsts.1 hfirst).1) horder hdisjoint
      fun _ _ _ _ _ => rfl

end SeaOfNodes.Schedule
