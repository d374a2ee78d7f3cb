/-
  SeaOfNodes.Proofs.Listing.Paths

  Paths of a listing.  Control starts at the first instruction of a block and goes
  from instruction to instruction: on to the following one, to the block that a jump
  or one of the outcomes of a branch names, or past the end of a block to the next
  block.  A point of a path knows the blocks entered so far, what is left of the
  current block, and the registers written on the way.
-/
import SeaOfNodes.Proofs.Listing.Control

namespace SeaOfNodes.Listing

/-! ## Reading and writing -/

/-- The register that an instruction writes. -/
def writes (i : Instr) : List Register := if i.dest = noRegister then [] else [i.dest]

/-- The registers that a phi reads when control came from a block: those paired
    with it. -/
def phiReads (came : Nat) : List Operand → List Register
  | block :: value :: rest =>
    if block.block.toInt = came then value.register :: phiReads came rest else phiReads came rest
  | _ => []

/-- The registers that an instruction reads when control came from a block, or
    from none at the start: its arguments and its register operands, of which a phi
    reads the one for the block. -/
def reads (came : Option Nat) (i : Instr) : List Register :=
  i.args ++ if i.op = opcode .phi then (came.map fun block => phiReads block i.trailing).getD []
    else (i.trailing.filter fun operand => operand.kind = 1).map Operand.register

/-! ## Control -/

/-- Whether control may go on to the following instruction. -/
def falls (i : Instr) : Bool :=
  match transfer i with
  | .next => true
  | .stop => false
  | .jump _ => false
  | .branch _ ifTrue ifFalse => ifTrue.isNone || ifFalse.isNone

/-- The blocks that control may go to. -/
def targets (i : Instr) : List Int64 :=
  match transfer i with
  | .next => []
  | .stop => []
  | .jump target => [target]
  | .branch _ ifTrue ifFalse => ifTrue.toList ++ ifFalse.toList

/-- A point of a path. -/
structure Point where
  /-- The blocks entered so far, the current one first. -/
  path : List Nat
  rest : List Instr
  written : List Register

/-- The points of the paths that begin at a block.  Both outcomes of a branch are
    followed. -/
inductive Reaches (blocks : List Block) (entry : Nat) : Point → Prop
  | start {block : Block} (hblock : blocks[entry]? = some block) : Reaches blocks entry ⟨[entry], block, []⟩
  | next {path : List Nat} {i : Instr} {rest : List Instr} {written : List Register}
      (h : Reaches blocks entry ⟨path, i :: rest, written⟩) (hfalls : falls i = true) :
      Reaches blocks entry ⟨path, rest, writes i ++ written⟩
  | jump {path : List Nat} {i : Instr} {rest : List Instr} {written : List Register} {target : Int64}
      {t : Nat} {block : Block} (h : Reaches blocks entry ⟨path, i :: rest, written⟩)
      (htarget : target ∈ targets i) (ht : target.toInt = t) (hblock : blocks[t]? = some block) :
      Reaches blocks entry ⟨t :: path, block, writes i ++ written⟩
  | fall {b : Nat} {before : List Nat} {written : List Register} {block : Block}
      (h : Reaches blocks entry ⟨b :: before, [], written⟩) (hblock : blocks[b + 1]? = some block) :
      Reaches blocks entry ⟨(b + 1) :: b :: before, block, written⟩

/-- No path reads a register before it writes it. -/
def DefinesBeforeUse (blocks : List Block) (entry : Nat) : Prop :=
  ∀ path i rest written, Reaches blocks entry ⟨path, i :: rest, written⟩ →
    ∀ r ∈ reads path.tail.head? i, r ∈ written

/-- Every path to one block enters another one before, or is the same block. -/
def Dominates (blocks : List Block) (entry a b : Nat) : Prop :=
  ∀ before rest written, Reaches blocks entry ⟨b :: before, rest, written⟩ → a ∈ b :: before

/-! ## From block to block -/

/-- The blocks that control may leave a block for, when `next` is the index of the
    one that follows. -/
def exits (next : Int) : Block → List Int
  | [] => [next]
  | i :: rest => (targets i).map Int64.toInt ++ if falls i then exits next rest else []

/-- A block is left by a transfer that is reached, or past its end. -/
theorem mem_exits {next t : Int} {block : Block} :
    t ∈ exits next block ↔ ∃ ran rest, block = ran ++ rest ∧ (∀ i ∈ ran, falls i = true) ∧
      ((rest = [] ∧ t = next) ∨ ∃ i more target, rest = i :: more ∧ target ∈ targets i ∧ target.toInt = t) := by
  constructor
  · intro h
    induction block with
    | nil => exact ⟨[], [], rfl, by simp, .inl ⟨rfl, List.mem_singleton.1 h⟩⟩
    | cons i block ih =>
        rw [exits] at h
        rcases List.mem_append.1 h with h | h
        · obtain ⟨target, htarget, ht⟩ := List.mem_map.1 h
          exact ⟨[], i :: block, rfl, by simp, .inr ⟨i, block, target, rfl, htarget, ht⟩⟩
        · split at h
          · rename_i hfalls
            obtain ⟨ran, rest, rfl, hran, hway⟩ := ih h
            refine ⟨i :: ran, rest, rfl, fun j hj => ?_, hway⟩
            rcases List.mem_cons.1 hj with rfl | hj
            · exact hfalls
            · exact hran j hj
          · cases h
  · rintro ⟨ran, rest, rfl, hran, hway⟩
    induction ran with
    | nil =>
        rcases hway with ⟨rfl, rfl⟩ | ⟨i, more, target, rfl, htarget, rfl⟩
        · exact List.mem_singleton_self _
        · exact List.mem_append_left _ (List.mem_map.2 ⟨target, htarget, rfl⟩)
    | cons i ran ih =>
        rw [List.cons_append, exits, if_pos (hran i List.mem_cons_self)]
        exact List.mem_append_right _ (ih fun j hj => hran j (List.mem_cons_of_mem i hj))

/-- Instructions that only go on do not decide how a block is left. -/
theorem exits_append {next : Int} {plain : List Instr} (h : ∀ i ∈ plain, transfer i = .next) (rest : Block) :
    exits next (plain ++ rest) = exits next rest := by
  induction plain with
  | nil => rfl
  | cons i plain ih =>
      have hi := h i List.mem_cons_self
      rw [List.cons_append, exits, ih fun j hj => h j (List.mem_cons_of_mem i hj)]
      simp [targets, falls, hi]

/-- Control may leave one block for another. -/
def Leads (blocks : List Block) (a b : Nat) : Prop :=
  ∃ block, blocks[a]? = some block ∧ (b : Int) ∈ exits (a + 1) block

/-- The blocks entered on a path, the last one first. -/
inductive Entered (blocks : List Block) (entry : Nat) : List Nat → Prop
  | start (hentry : entry < blocks.length) : Entered blocks entry [entry]
  | step {a b : Nat} {before : List Nat} (h : Entered blocks entry (a :: before)) (hleads : Leads blocks a b)
      (hb : b < blocks.length) : Entered blocks entry (b :: a :: before)

section Walk

variable {blocks : List Block} {entry : Nat}

theorem Entered.exists_block {b : Nat} {before : List Nat} (h : Entered blocks entry (b :: before)) :
    ∃ block, blocks[b]? = some block := by
  cases h with
  | start hentry => exact ⟨_, List.getElem?_eq_getElem hentry⟩
  | step _ _ hb => exact ⟨_, List.getElem?_eq_getElem hb⟩

/-- Every block on a path but the last was left. -/
theorem Entered.leads_of_mem {b : Nat} {before : List Nat} (h : Entered blocks entry (b :: before)) {a : Nat}
    (ha : a ∈ before) : ∃ next, Leads blocks a next := by
  generalize hpath : b :: before = path at h
  induction h generalizing b before with
  | start _ =>
      cases hpath
      cases ha
  | @step a' _ earlier _ hleads _ ih =>
      obtain ⟨rfl, rfl⟩ := List.cons.inj hpath
      rcases List.mem_cons.1 ha with rfl | ha
      · exact ⟨b, hleads⟩
      · exact ih ha rfl

/-- Instructions that let control on are passed. -/
theorem Reaches.pass {path : List Nat} {ran rest : List Instr} {written : List Register}
    (h : Reaches blocks entry ⟨path, ran ++ rest, written⟩) (hran : ∀ i ∈ ran, falls i = true) :
    ∃ more, Reaches blocks entry ⟨path, rest, more⟩ := by
  induction ran generalizing written with
  | nil => exact ⟨written, h⟩
  | cons i ran ih =>
      exact ih (h.next (hran i List.mem_cons_self)) fun j hj => hran j (List.mem_cons_of_mem i hj)

/-- A block on a path can be entered on that path. -/
theorem Entered.reaches {b : Nat} {before : List Nat} (h : Entered blocks entry (b :: before)) :
    ∀ block, blocks[b]? = some block → ∃ written, Reaches blocks entry ⟨b :: before, block, written⟩ := by
  generalize hpath : b :: before = path at h
  induction h generalizing b before with
  | start _ =>
      cases hpath
      exact fun block hblock => ⟨[], .start hblock⟩
  | @step a _ earlier hprev hleads _ ih =>
      obtain ⟨rfl, rfl⟩ := List.cons.inj hpath
      intro block hblock
      obtain ⟨left, hleft, hexit⟩ := hleads
      obtain ⟨ran, rest, rfl, hran, hway⟩ := mem_exits.1 hexit
      obtain ⟨written, hreach⟩ := ih rfl _ hleft
      obtain ⟨more, hrest⟩ := hreach.pass hran
      rcases hway with ⟨rfl, hnext⟩ | ⟨i, after, target, rfl, htarget, ht⟩
      · obtain rfl : b = a + 1 := by exact_mod_cast hnext
        exact ⟨more, hrest.fall hblock⟩
      · exact ⟨writes i ++ more, hrest.jump htarget ht hblock⟩

/-! ## Where a point stands -/

/-- In each block nothing is written after control may have left it. -/
def Quiet (blocks : List Block) : Prop :=
  ∀ block ∈ blocks, ∀ ran i rest, block = ran ++ i :: rest → (∀ j ∈ ran, falls j = true) → targets i ≠ [] →
    ∀ j ∈ rest, writes j = []

/-- A register is written in a block. -/
def WrittenIn (blocks : List Block) (b : Nat) (r : Register) : Prop :=
  ∃ block, blocks[b]? = some block ∧ ∃ i ∈ block, r ∈ writes i

/-- Where a point stands: in a block that was entered, behind instructions that let
    control on.  What these and the blocks before write has been written, and nothing
    else. -/
structure Stands (blocks : List Block) (entry : Nat) (point : Point) (b : Nat) (before : List Nat)
    (block ran : List Instr) : Prop where
  path_eq : point.path = b :: before
  block_eq : blocks[b]? = some block
  split : block = ran ++ point.rest
  falls : ∀ i ∈ ran, falls i = true
  entered : Entered blocks entry (b :: before)
  mem_written : Quiet blocks → ∀ r, r ∈ point.written ↔
    (∃ i ∈ ran, r ∈ writes i) ∨ ∃ a ∈ before, WrittenIn blocks a r

theorem Quiet.writtenIn_iff (hquiet : Quiet blocks) {b : Nat} {ran more : List Instr} {i : Instr}
    (hblock : blocks[b]? = some (ran ++ i :: more)) (hran : ∀ j ∈ ran, falls j = true) (htargets : targets i ≠ [])
    {r : Register} : WrittenIn blocks b r ↔ (∃ j ∈ ran, r ∈ writes j) ∨ r ∈ writes i := by
  have hsilent := hquiet _ (List.mem_of_getElem? hblock) ran i more rfl hran htargets
  constructor
  · rintro ⟨block, hblock', j, hj, hr⟩
    rw [hblock, Option.some.injEq] at hblock'
    subst hblock'
    rcases List.mem_append.1 hj with hj | hj
    · exact .inl ⟨j, hj, hr⟩
    · rcases List.mem_cons.1 hj with rfl | hj
      · exact .inr hr
      · rw [hsilent j hj] at hr
        cases hr
  · rintro (⟨j, hj, hr⟩ | hr)
    · exact ⟨_, hblock, j, by simp [hj], hr⟩
    · exact ⟨_, hblock, i, by simp, hr⟩

namespace Stands

variable {path before : List Nat} {b : Nat} {block ran rest : List Instr} {i : Instr} {written : List Register}

theorem start (hblock : blocks[entry]? = some block) :
    Stands blocks entry ⟨[entry], block, []⟩ entry [] block [] := by
  obtain ⟨hentry, -⟩ := List.getElem?_eq_some_iff.1 hblock
  exact ⟨rfl, hblock, rfl, by simp, .start hentry, by simp⟩

theorem next (h : Stands blocks entry ⟨path, i :: rest, written⟩ b before block ran)
    (hfalls : Listing.falls i = true) :
    Stands blocks entry ⟨path, rest, writes i ++ written⟩ b before block (ran ++ [i]) where
  path_eq := h.path_eq
  block_eq := h.block_eq
  split := by
    rw [h.split]
    simp
  falls := by
    intro j hj
    rcases List.mem_append.1 hj with hj | hj
    · exact h.falls j hj
    · rw [List.mem_singleton.1 hj]
      exact hfalls
  entered := h.entered
  mem_written := by
    intro hquiet r
    rw [List.mem_append, h.mem_written hquiet]
    simp only [List.mem_append, List.mem_singleton, or_and_right, exists_or, exists_eq_left]
    rw [← or_assoc, or_comm (a := r ∈ writes i)]

theorem jump (h : Stands blocks entry ⟨path, i :: rest, written⟩ b before block ran) {target : Int64} {t : Nat}
    {next : Block} (htarget : target ∈ targets i) (ht : target.toInt = t) (hnext : blocks[t]? = some next) :
    Stands blocks entry ⟨t :: path, next, writes i ++ written⟩ t (b :: before) next [] := by
  have hleads : Leads blocks b t := ⟨block, h.block_eq, mem_exits.2 ⟨ran, i :: rest, h.split, h.falls,
    .inr ⟨i, rest, target, rfl, htarget, ht⟩⟩⟩
  obtain ⟨hlt, -⟩ := List.getElem?_eq_some_iff.1 hnext
  refine ⟨congrArg (t :: ·) h.path_eq, hnext, rfl, by simp, h.entered.step hleads hlt, fun hquiet r => ?_⟩
  -- The rest of the block writes nothing, so the whole block wrote what was passed of it.
  have hblock := hquiet.writtenIn_iff (h.split ▸ h.block_eq) h.falls (List.ne_nil_of_mem htarget) (r := r)
  rw [List.mem_append, h.mem_written hquiet]
  simp only [List.mem_cons, or_and_right, exists_or, exists_eq_left, hblock, List.not_mem_nil, false_and,
    exists_false, false_or]
  rw [← or_assoc, or_comm (a := r ∈ writes i)]

theorem fall (h : Stands blocks entry ⟨path, [], written⟩ b before block ran) {next : Block}
    (hnext : blocks[b + 1]? = some next) :
    Stands blocks entry ⟨(b + 1) :: path, next, written⟩ (b + 1) (b :: before) next [] := by
  have hsplit : block = ran := by rw [h.split, List.append_nil]
  have hleads : Leads blocks b (b + 1) := ⟨block, h.block_eq,
    mem_exits.2 ⟨ran, [], h.split, h.falls, .inl ⟨rfl, by simp⟩⟩⟩
  obtain ⟨hlt, -⟩ := List.getElem?_eq_some_iff.1 hnext
  refine ⟨congrArg ((b + 1) :: ·) h.path_eq, hnext, rfl, by simp, h.entered.step hleads hlt, fun hquiet r => ?_⟩
  have hblock : WrittenIn blocks b r ↔ ∃ j ∈ ran, r ∈ writes j := by
    simp [WrittenIn, h.block_eq, hsplit]
  rw [h.mem_written hquiet]
  simp [hblock]

end Stands

/-- Every point that a path reaches stands somewhere. -/
theorem Reaches.stands {point : Point} (h : Reaches blocks entry point) :
    ∃ b before block ran, Stands blocks entry point b before block ran := by
  induction h with
  | start hblock => exact ⟨entry, [], _, [], .start hblock⟩
  | next _ hfalls ih =>
      obtain ⟨b, before, block, ran, hstands⟩ := ih
      exact ⟨b, before, block, ran ++ [_], hstands.next hfalls⟩
  | jump _ htarget ht hnext ih =>
      obtain ⟨b, before, block, ran, hstands⟩ := ih
      exact ⟨_, b :: before, _, [], hstands.jump htarget ht hnext⟩
  | fall _ hnext ih =>
      obtain ⟨b, before, block, ran, hstands⟩ := ih
      obtain ⟨rfl, rfl⟩ := List.cons.inj hstands.path_eq
      exact ⟨_, _, _, [], hstands.fall hnext⟩

/-- One block dominates another exactly if no way of entering the latter avoids
    the former. -/
theorem dominates_iff {a b : Nat} :
    Dominates blocks entry a b ↔ ∀ before, Entered blocks entry (b :: before) → a ∈ b :: before := by
  constructor
  · intro h before hentered
    obtain ⟨block, hblock⟩ := hentered.exists_block
    obtain ⟨written, hreach⟩ := hentered.reaches block hblock
    exact h before block written hreach
  · intro h before rest written hreach
    obtain ⟨b', before', _, _, hstands⟩ := hreach.stands
    obtain ⟨rfl, rfl⟩ := List.cons.inj hstands.path_eq
    exact h before hstands.entered

end Walk

end SeaOfNodes.Listing
