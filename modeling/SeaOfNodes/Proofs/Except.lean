/-
  SeaOfNodes.Proofs.Except

  When a computation that may fail succeeds: the parts of a sequence do, and a list
  is mapped member by member.  Facts about the mapped list follow from its being
  related to the given one place by place.
-/
import Mathlib.Data.List.Forall2

namespace SeaOfNodes

variable {ε α β : Type}

theorem bind_eq_ok {x : Except ε α} {f : α → Except ε β} {b : β} :
    (x >>= f) = .ok b ↔ ∃ a, x = .ok a ∧ f a = .ok b := by
  cases x <;> simp [bind, Except.bind]

theorem bind_eq_error {x : Except ε α} {f : α → Except ε β} {cause : ε} :
    (x >>= f) = .error cause ↔ x = .error cause ∨ ∃ a, x = .ok a ∧ f a = .error cause := by
  cases x <;> simp [bind, Except.bind]

/-- A sequence succeeds when its parts do. -/
theorem bind_succeeds {x : Except ε α} {f : α → Except ε β} (hx : ∃ a, x = .ok a)
    (hf : ∀ a, x = .ok a → ∃ b, f a = .ok b) : ∃ b, (x >>= f) = .ok b := by
  obtain ⟨a, ha⟩ := hx
  obtain ⟨b, hb⟩ := hf a ha
  exact ⟨b, bind_eq_ok.2 ⟨a, ha, hb⟩⟩

theorem map_eq_ok {x : Except ε α} {f : α → β} {b : β} :
    x.map f = .ok b ↔ ∃ a, x = .ok a ∧ f a = b := by
  cases x <;> simp [Except.map]

theorem pure_eq_ok {a b : α} : (pure a : Except ε α) = .ok b ↔ a = b := by
  simp [pure, Except.pure]

/-- A list is mapped when each of its members is. -/
theorem mapM_eq_ok {f : α → Except ε β} {l : List α} {l' : List β} :
    l.mapM f = .ok l' ↔ List.Forall₂ (fun a b => f a = .ok b) l l' := by
  induction l generalizing l' with
  | nil =>
      rw [List.mapM_nil, pure_eq_ok, List.forall₂_nil_left_iff]
      exact eq_comm
  | cons a rest ih =>
      rw [List.mapM_cons, bind_eq_ok]
      constructor
      · rintro ⟨b, hb, htail⟩
        obtain ⟨rest', hrest, hl'⟩ := bind_eq_ok.1 htail
        rw [← pure_eq_ok.1 hl']
        exact .cons hb (ih.1 hrest)
      · intro h
        cases h with
        | @cons _ b _ rest' hb hrest =>
            exact ⟨b, hb, bind_eq_ok.2 ⟨rest', ih.2 hrest, rfl⟩⟩

/-- A list is not mapped when one of its members is not, the first of them. -/
theorem exists_first_of_mapM_eq_error {f : α → Except ε β} {l : List α} {cause : ε} (h : l.mapM f = .error cause) :
    ∃ front a back, l = front ++ a :: back ∧ (∀ x ∈ front, ∃ b, f x = .ok b) ∧ f a = .error cause := by
  induction l with
  | nil => cases h
  | cons a rest ih =>
      rw [List.mapM_cons, bind_eq_error] at h
      rcases h with ha | ⟨b, hb, htail⟩
      · exact ⟨[], a, rest, rfl, by simp, ha⟩
      · rcases bind_eq_error.1 htail with hrest | ⟨rest', -, hpure⟩
        · obtain ⟨front, x, back, rfl, hfront, hx⟩ := ih hrest
          exact ⟨a :: front, x, back, rfl, List.forall_mem_cons.2 ⟨⟨b, hb⟩, hfront⟩, hx⟩
        · cases hpure

theorem mapM_eq_error {f : α → Except ε β} {l : List α} {cause : ε} (h : l.mapM f = .error cause) :
    ∃ a ∈ l, f a = .error cause := by
  obtain ⟨front, a, back, rfl, -, ha⟩ := exists_first_of_mapM_eq_error h
  exact ⟨a, List.mem_append_right front List.mem_cons_self, ha⟩

/-- A list is mapped when each of its members can be. -/
theorem mapM_succeeds {f : α → Except ε β} {l : List α} (h : ∀ a ∈ l, ∃ b, f a = .ok b) :
    ∃ l', l.mapM f = .ok l' := by
  cases hmap : l.mapM f with
  | ok l' => exact ⟨l', rfl⟩
  | error cause =>
      obtain ⟨a, ha, hfails⟩ := mapM_eq_error hmap
      obtain ⟨b, hb⟩ := h a ha
      rw [hb] at hfails
      cases hfails

/-- A computation fails for the expected causes, if at all. -/
def FailsOnly (expected : ε → Prop) (x : Except ε α) : Prop := ∀ cause, x = .error cause → expected cause

namespace FailsOnly

variable {expected : ε → Prop}

theorem ok (a : α) : FailsOnly expected (.ok a : Except ε α) := by
  intro cause h
  cases h

theorem error {cause : ε} (h : expected cause) : FailsOnly expected (.error cause : Except ε α) := by
  intro cause' h'
  cases h'
  exact h

theorem bind {x : Except ε α} {f : α → Except ε β} (hx : FailsOnly expected x)
    (hf : ∀ a, x = .ok a → FailsOnly expected (f a)) : FailsOnly expected (x >>= f) := by
  intro cause h
  rcases bind_eq_error.1 h with hfails | ⟨a, ha, hfails⟩
  · exact hx cause hfails
  · exact hf a ha cause hfails

theorem mapM {f : α → Except ε β} {l : List α} (h : ∀ a ∈ l, FailsOnly expected (f a)) :
    FailsOnly expected (l.mapM f) := by
  intro cause hfails
  obtain ⟨a, ha, hfa⟩ := mapM_eq_error hfails
  exact h a ha cause hfa

end FailsOnly

/-- What the steps of a loop make true of the members done so far the loop makes true of all. -/
theorem foldlM_front {f : β → α → Except ε β} (holds : List α → β → Prop) {l : List α}
    (hstep : ∀ front a back b b', l = front ++ a :: back → holds front b → f b a = .ok b' → holds (front ++ [a]) b')
    {b b' : β} (hfold : l.foldlM f b = .ok b') (hb : holds [] b) : holds l b' := by
  have hall : ∀ front back b, l = front ++ back → holds front b → back.foldlM f b = .ok b' → holds l b' := by
    intro front back
    induction back generalizing front with
    | nil =>
        intro b hl hfront hfold
        rw [List.foldlM_nil, pure_eq_ok] at hfold
        rw [hl, List.append_nil, ← hfold]
        exact hfront
    | cons a rest ih =>
        intro b hl hfront hfold
        rw [List.foldlM_cons] at hfold
        obtain ⟨next, hnext, hrest⟩ := bind_eq_ok.1 hfold
        refine ih (front ++ [a]) next ?_ (hstep front a rest b next hl hfront hnext) hrest
        rw [hl, List.append_assoc]
        rfl
  exact hall [] l b rfl hb hfold

/-- What every step of a loop keeps the loop keeps. -/
theorem foldlM_keeps_of_mem {f : β → α → Except ε β} (holds : β → Prop) {l : List α}
    (hstep : ∀ b, ∀ a ∈ l, ∀ b', holds b → f b a = .ok b' → holds b') {b b' : β}
    (hfold : l.foldlM f b = .ok b') (hb : holds b) : holds b' := by
  refine foldlM_front (fun _ => holds) (fun front a back b b' hl => ?_) hfold hb
  exact hstep b a (by rw [hl]; exact List.mem_append_right front List.mem_cons_self) b'

theorem foldlM_keeps {f : β → α → Except ε β} (holds : β → Prop)
    (hstep : ∀ b a b', holds b → f b a = .ok b' → holds b') {l : List α} {b b' : β}
    (hfold : l.foldlM f b = .ok b') (hb : holds b) : holds b' :=
  foldlM_keeps_of_mem holds (fun b a _ => hstep b a) hfold hb

/-- A loop succeeds when each of its steps does, given what the steps before it keep. -/
theorem foldlM_succeeds {f : β → α → Except ε β} (holds : List α → β → Prop) {l : List α}
    (hstep : ∀ front a back b, l = front ++ a :: back → holds front b → ∃ b', f b a = .ok b' ∧ holds (front ++ [a]) b')
    {b : β} (hb : holds [] b) : ∃ b', l.foldlM f b = .ok b' ∧ holds l b' := by
  have hall : ∀ front back b, l = front ++ back → holds front b → ∃ b', back.foldlM f b = .ok b' ∧ holds l b' := by
    intro front back
    induction back generalizing front with
    | nil =>
        intro b hl hfront
        rw [List.append_nil] at hl
        exact ⟨b, rfl, hl ▸ hfront⟩
    | cons a rest ih =>
        intro b hl hfront
        obtain ⟨next, hnext, hkept⟩ := hstep front a rest b hl hfront
        obtain ⟨b', hrest, hb'⟩ := ih (front ++ [a]) next (by rw [hl, List.append_assoc]; rfl) hkept
        refine ⟨b', ?_, hb'⟩
        rw [List.foldlM_cons, hnext]
        exact hrest
  exact hall [] l b rfl hb

/-- What one step of a loop brings about holds after the loop, if the steps before keep
    what it needs and those after keep what it gives. -/
theorem foldlM_reaches {f : β → α → Except ε β} (before after : β → Prop) {l : List α} {a : α} (ha : a ∈ l)
    (hbefore : ∀ b, ∀ x ∈ l, x ≠ a → ∀ b', before b → f b x = .ok b' → before b')
    (hat : ∀ b b', before b → f b a = .ok b' → after b')
    (hafter : ∀ b, ∀ x ∈ l, ∀ b', after b → f b x = .ok b' → after b') {b b' : β}
    (hfold : l.foldlM f b = .ok b') (hb : before b) : after b' := by
  induction l generalizing b with
  | nil => cases ha
  | cons x rest ih =>
      rw [List.foldlM_cons] at hfold
      obtain ⟨next, hnext, hrest⟩ := bind_eq_ok.1 hfold
      have hafter' : ∀ b, ∀ y ∈ rest, ∀ b', after b → f b y = .ok b' → after b' := fun b y hy =>
        hafter b y (List.mem_cons_of_mem x hy)
      rcases eq_or_ne x a with rfl | hne
      · exact foldlM_keeps_of_mem after hafter' hrest (hat b next hb hnext)
      · refine ih ((List.mem_cons.1 ha).resolve_left hne.symm) (fun b y hy => ?_) hafter' hrest ?_
        · exact hbefore b y (List.mem_cons_of_mem x hy)
        · exact hbefore b x List.mem_cons_self hne next hb hnext

/-- A check of all members passes when that of each one does. -/
theorem forM_eq_ok {f : α → Except ε Unit} {l : List α} : l.forM f = .ok () ↔ ∀ a ∈ l, f a = .ok () := by
  induction l with
  | nil =>
      rw [List.forM, pure_eq_ok]
      simp
  | cons a rest ih =>
      rw [List.forM, bind_eq_ok, List.forall_mem_cons, ← ih]
      constructor
      · rintro ⟨_, ha, hrest⟩
        exact ⟨ha, hrest⟩
      · rintro ⟨ha, hrest⟩
        exact ⟨(), ha, hrest⟩

/-- It fails for what one member is refused for. -/
theorem forM_eq_error {f : α → Except ε Unit} {l : List α} {cause : ε} (h : l.forM f = .error cause) :
    ∃ a ∈ l, f a = .error cause := by
  induction l with
  | nil => cases h
  | cons a rest ih =>
      rw [List.forM, bind_eq_error] at h
      rcases h with ha | ⟨_, -, hrest⟩
      · exact ⟨a, List.mem_cons_self, ha⟩
      · obtain ⟨x, hx, hfx⟩ := ih hrest
        exact ⟨x, List.mem_cons_of_mem a hx, hfx⟩

theorem mapError_eq_error {ε' : Type} {x : Except ε α} {f : ε → ε'} {cause : ε'} :
    x.mapError f = .error cause ↔ ∃ why, x = .error why ∧ f why = cause := by
  cases x <;> simp [Except.mapError]

theorem mapError_eq_ok {ε' : Type} {x : Except ε α} {f : ε → ε'} {a : α} :
    x.mapError f = .ok a ↔ x = .ok a := by
  cases x <;> simp [Except.mapError]

/-- Related lists have related members at each place. -/
theorem forall₂_getElem? {R : α → β → Prop} {l : List α} {l' : List β} (h : List.Forall₂ R l l')
    {i : Nat} {a : α} (ha : l[i]? = some a) : ∃ b, l'[i]? = some b ∧ R a b := by
  induction h generalizing i with
  | nil => simp at ha
  | @cons x y _ _ hxy _ ih =>
      cases i with
      | zero =>
          obtain rfl : x = a := by simpa using ha
          exact ⟨y, rfl, hxy⟩
      | succ i => exact ih ha

theorem forall₂_mem_right {R : α → β → Prop} {l : List α} {l' : List β} (h : List.Forall₂ R l l')
    {b : β} (hb : b ∈ l') : ∃ a ∈ l, R a b := by
  induction h with
  | nil => cases hb
  | @cons x y _ _ hxy _ ih =>
      rcases List.mem_cons.1 hb with rfl | hb
      · exact ⟨x, List.mem_cons_self, hxy⟩
      · obtain ⟨a, ha, hab⟩ := ih hb
        exact ⟨a, List.mem_cons_of_mem x ha, hab⟩

theorem forall₂_mem_left {R : α → β → Prop} {l : List α} {l' : List β} (h : List.Forall₂ R l l')
    {a : α} (ha : a ∈ l) : ∃ b ∈ l', R a b := by
  obtain ⟨b, hb, hab⟩ := forall₂_mem_right h.flip ha
  exact ⟨b, hb, hab⟩

/-- Members that are each related to something make a list that is. -/
theorem exists_forall₂ {α β : Type} {R : α → β → Prop} {l : List α} (h : ∀ a ∈ l, ∃ b, R a b) :
    ∃ l', List.Forall₂ R l l' := by
  induction l with
  | nil => exact ⟨[], .nil⟩
  | cons a rest ih =>
      obtain ⟨b, hb⟩ := h a List.mem_cons_self
      obtain ⟨rest', hrest⟩ := ih fun x hx => h x (List.mem_cons_of_mem a hx)
      exact ⟨b :: rest', .cons hb hrest⟩

/-- What relates the members of one list to those of another may be weakened member
    by member. -/
theorem forall₂_imp_of_mem_mem {R S : α → β → Prop} {l : List α} {l' : List β} (h : List.Forall₂ R l l')
    (himp : ∀ a ∈ l, ∀ b ∈ l', R a b → S a b) : List.Forall₂ S l l' := by
  induction h with
  | nil => exact .nil
  | @cons a b l l' hab _ ih =>
      refine .cons (himp a List.mem_cons_self b List.mem_cons_self hab) (ih fun x hx y hy => ?_)
      exact himp x (List.mem_cons_of_mem a hx) y (List.mem_cons_of_mem b hy)

theorem forall₂_imp_of_mem {R S : α → β → Prop} {l : List α} {l' : List β} (h : List.Forall₂ R l l')
    (himp : ∀ a ∈ l, ∀ b, R a b → S a b) : List.Forall₂ S l l' :=
  forall₂_imp_of_mem_mem h fun a ha b _ => himp a ha b

theorem forall₂_comp {γ : Type} {R : α → β → Prop} {S : β → γ → Prop} {l : List α} {m : List β}
    {n : List γ} (hlm : List.Forall₂ R l m) (hmn : List.Forall₂ S m n) :
    List.Forall₂ (fun a c => ∃ b, R a b ∧ S b c) l n := by
  induction hlm generalizing n with
  | nil =>
      cases hmn
      exact .nil
  | cons hab _ ih =>
      cases hmn with
      | cons hbc hrest => exact .cons ⟨_, hab, hbc⟩ (ih hrest)

/-- What is related to a list that is put together is put together alike. -/
theorem forall₂_append_left {R : α → β → Prop} {l m : List α} {whole : List β}
    (h : List.Forall₂ R (l ++ m) whole) :
    ∃ l' m', whole = l' ++ m' ∧ List.Forall₂ R l l' ∧ List.Forall₂ R m m' := by
  induction l generalizing whole with
  | nil => exact ⟨[], whole, rfl, .nil, h⟩
  | cons a l ih =>
      cases h with
      | cons hab hrest =>
          obtain ⟨l', m', rfl, hl, hm⟩ := ih hrest
          exact ⟨_ :: l', m', rfl, .cons hab hl, hm⟩

theorem forall₂_flatten_left {R : α → β → Prop} {ls : List (List α)} {whole : List β}
    (h : List.Forall₂ R ls.flatten whole) :
    ∃ parts : List (List β), whole = parts.flatten ∧ List.Forall₂ (List.Forall₂ R) ls parts := by
  induction ls generalizing whole with
  | nil =>
      cases h
      exact ⟨[], rfl, .nil⟩
  | cons l ls ih =>
      rw [List.flatten_cons] at h
      obtain ⟨part, rest, rfl, hpart, hrest⟩ := forall₂_append_left h
      obtain ⟨parts, rfl, hparts⟩ := ih hrest
      exact ⟨part :: parts, rfl, .cons hpart hparts⟩

/-- What is related to the kept members of a list splits where the list does. -/
theorem forall₂_filter_of_split {R : α → β → Prop} {keep : α → Bool} {front behind : List α} {a : α} {l : List β}
    (h : List.Forall₂ R ((front ++ a :: behind).filter keep) l) (ha : keep a = true) :
    ∃ before b after, l = before ++ b :: after ∧ List.Forall₂ R (front.filter keep) before ∧ R a b ∧
      List.Forall₂ R (behind.filter keep) after := by
  rw [List.filter_append, List.filter_cons, if_pos ha] at h
  obtain ⟨before, others, rfl, hbefore, hothers⟩ := forall₂_append_left h
  cases hothers with
  | @cons _ b _ after hab hafter => exact ⟨before, b, after, rfl, hbefore, hab, hafter⟩

/-- The same the other way round: the list splits at the member that a place belongs to. -/
theorem forall₂_filter_split {R : α → β → Prop} {keep : α → Bool} {l : List α} {before after : List β} {b : β}
    (h : List.Forall₂ R (l.filter keep) (before ++ b :: after)) :
    ∃ front a behind, l = front ++ a :: behind ∧ List.Forall₂ R (front.filter keep) before ∧ keep a = true ∧
      R a b := by
  obtain ⟨left, right, hfilter, hleft, hright⟩ := forall₂_append_left h.flip
  cases hright with
  | @cons _ a _ right hab _ =>
      obtain ⟨kept, others, rfl, hkept, hothers⟩ := List.filter_eq_append_iff.1 hfilter
      obtain ⟨skipped, behind, rfl, hskipped, hkeep, -⟩ := List.filter_eq_cons_iff.1 hothers
      refine ⟨kept ++ skipped, a, behind, by simp, ?_, hkeep, hab⟩
      rw [List.filter_append, hkept, List.filter_eq_nil_iff.2 hskipped, List.append_nil]
      exact hleft.flip

theorem forall₂_getLast? {R : α → β → Prop} {l : List α} {l' : List β} (h : List.Forall₂ R l l') :
    Option.Rel R l.getLast? l'.getLast? := by
  induction h with
  | nil => exact .none
  | @cons a b l l' hab hrest ih =>
      cases hrest with
      | nil => exact .some hab
      | cons _ _ => simpa using ih

theorem exists_getLast?_of_forall₂ {R : α → β → Prop} {l : List α} {l' : List β} (h : List.Forall₂ R l l')
    {a : α} (ha : l.getLast? = some a) : ∃ b, l'.getLast? = some b ∧ R a b := by
  have hrel := forall₂_getLast? h
  rw [ha] at hrel
  cases hb : l'.getLast? with
  | none =>
      rw [hb] at hrel
      cases hrel
  | some b =>
      rw [hb] at hrel
      cases hrel with
      | some hab => exact ⟨b, rfl, hab⟩

end SeaOfNodes
