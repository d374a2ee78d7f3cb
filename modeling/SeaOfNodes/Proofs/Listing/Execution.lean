/-
  SeaOfNodes.Proofs.Listing.Execution

  What runs when a block is entered.  The instructions of a finished block run in
  the order of the nodes of its chain, up to a finish; each writes the register of
  its node and reads those of the node's operands.  The transfers at the end write
  nothing, and read a register only where a branch reads its condition.
-/
import SeaOfNodes.Proofs.Listing.Numbering
import SeaOfNodes.Proofs.Listing.Operands

namespace SeaOfNodes.Listing

open Schedule

/-! ## Finished blocks -/

/-- The ending of a block that stands for a branch, when `next` is the index of the
    block that follows. -/
inductive Decides (next : Nat) (condition : Register) (onTrue onFalse : Nat) : List Instr → Prop
  | fallsOnFalse (hnext : onFalse = next) : Decides next condition onTrue onFalse
      [conditional branchIfOp (.ofRegister condition) (.ofBlock (Int64.ofNat onTrue))]
  | fallsOnTrue (hnext : onTrue = next) : Decides next condition onTrue onFalse
      [conditional branchUnlessOp (.ofRegister condition) (.ofBlock (Int64.ofNat onFalse))]
  | jumps : Decides next condition onTrue onFalse
      [conditional branchIfOp (.ofRegister condition) (.ofBlock (Int64.ofNat onTrue)),
        jumpTo (.ofBlock (Int64.ofNat onFalse))]

/-- The finished block of a chain at an index: a return, a decision or a jump behind
    the instructions of plain nodes. -/
inductive FinishedBlock (g : Graph) (layout : Layout) (c : Chain) (b : Nat) : Block → Prop
  | returns {before after : List NodeId} {id : NodeId} {plain rest : List Instr} {x : Instr}
      (hnodes : c.nodes = before ++ id :: after) (hop : g.op id = .finish)
      (hplain : ∀ y ∈ before, IsPlain g y)
      (hbefore : List.Forall₂ (Emits g layout) (before.filter (emits g)) plain)
      (hx : Emits g layout id x) : FinishedBlock g layout c b (plain ++ x :: rest)
  | branches {before : List NodeId} {id ifTrue ifFalse : NodeId} {plain ending : List Instr}
      {x : Instr} {condition : Register} {onTrue onFalse : Nat}
      (hnodes : c.nodes = before ++ [id]) (hop : g.op id = .branch) (hmerge : c.merge? = none)
      (hplain : ∀ y ∈ before, IsPlain g y)
      (hbefore : List.Forall₂ (Emits g layout) (before.filter (emits g)) plain)
      (hx : Emits g layout id x) (hoperand : ∀ r, r = condition ↔ Supplies g id (IsOperand g id) r)
      (htrue : soleOutput g id .ifTrue = .ok ifTrue) (hfalse : soleOutput g id .ifFalse = .ok ifFalse)
      (honTrue : layout.index.lookup ifTrue = some onTrue)
      (honFalse : layout.index.lookup ifFalse = some onFalse)
      (hending : Decides (b + 1) condition onTrue onFalse ending) :
      FinishedBlock g layout c b (plain ++ ending)
  | flows {merge : NodeId} {index : Nat} {plain ending : List Instr}
      (hplain : ∀ y ∈ c.nodes, IsPlain g y)
      (hnodes : List.Forall₂ (Emits g layout) (c.nodes.filter (emits g)) plain)
      (hmerge : c.merge? = some merge) (hindex : layout.index.lookup merge = some index)
      (hending : (ending = [] ∧ index = b + 1) ∨ ending = [jumpTo (.ofBlock (Int64.ofNat index))]) :
      FinishedBlock g layout c b (plain ++ ending)

/-- A return is kept, and so is what stands before it. -/
theorem simplifyBlock_return (follows : Int64) (plain rest : List Instr) {x : Instr} (hx : x.op = returnOp) :
    ∃ rest', simplifyBlock follows (plain ++ x :: rest) = plain ++ x :: rest' := by
  cases hlast : rest.getLast? with
  | none =>
      rw [List.getLast?_eq_none_iff] at hlast
      subst hlast
      refine ⟨[], ?_⟩
      rw [simplifyBlock_concat]
      simp [simplifyLast, hx, returnOp, jumpOp, branchOp]
  | some last =>
      obtain ⟨front, rfl⟩ : ∃ front, rest = front ++ [last] :=
        ⟨rest.dropLast, (List.dropLast_append_getLast? last hlast).symm⟩
      refine ⟨front ++ simplifyLast follows last, ?_⟩
      have hassoc : plain ++ x :: (front ++ [last]) = (plain ++ x :: front) ++ [last] := by simp
      rw [hassoc, simplifyBlock_concat]
      simp

section Finished

variable {s out : Graph} {order : NodeId → List NodeId} {chains : List Chain} {layout : Layout}
  {blocks : List Block} (h : Listed s order out chains layout blocks) (hsize : s.arena.size < 2 ^ 63)
include h hsize

/-- An index of the layout is that of the block that follows exactly if the 64-bit
    numbers agree. -/
theorem Listed.eq_of_ofNat_eq {b index : Nat} {node : NodeId} (hb : b < blocks.length)
    (hindex : layout.index.lookup node = some index) (heq : Int64.ofNat index = Int64.ofNat (b + 1)) :
    index = b + 1 := by
  have hle := h.length_le
  have hint := congrArg Int64.toInt heq
  rw [h.toInt_index hsize hindex, Int64.toInt_ofNat_of_lt (by omega)] at hint
  exact_mod_cast hint

theorem Listed.finishedBlock {b : Nat} {block : Block} (hblock : blocks[b]? = some block) :
    ∃ c, chains[b]? = some c ∧ FinishedBlock out layout c b block := by
  obtain ⟨c, -, raw, hc, -, hshape, rfl⟩ := h.exists_chain hblock
  obtain ⟨hb, -⟩ := List.getElem?_eq_some_iff.1 hblock
  refine ⟨c, hc, ?_⟩
  cases hshape with
  | @returns before after id plain rest x hnodes hop hplain hbefore hx =>
      have hreturn : x.op = returnOp := by rw [hx.op_eq, hop]; rfl
      obtain ⟨rest', hrest'⟩ := simplifyBlock_return (Int64.ofNat (b + 1)) plain rest hreturn
      rw [hrest']
      exact .returns hnodes hop hplain hbefore hx
  | @branches before id plain x hnodes hop hmerge hplain hbefore hx =>
      obtain ⟨ways, htrailing⟩ := hx.trailing_branch hop
      rw [simplifyBlock_concat]
      refine .branches hnodes hop hmerge hplain hbefore hx
        (supplies_of_condition hop ways.condition_eq ways.register_eq) ways.ifTrue_eq ways.ifFalse_eq ways.onTrue_eq
        ways.onFalse_eq ?_
      rw [simplifyLast_branch (show x.op = branchOp by rw [hx.op_eq, hop]; rfl) htrailing]
      split
      · rename_i heq
        exact .fallsOnFalse (h.eq_of_ofNat_eq hsize hb ways.onFalse_eq heq)
      · split
        · rename_i heq
          exact .fallsOnTrue (h.eq_of_ofNat_eq hsize hb ways.onTrue_eq heq)
        · exact .jumps
  | @flows merge index plain hplain hnodes hmerge hindex =>
      rw [simplifyBlock_concat, simplifyLast_jumpTo]
      refine .flows hplain hnodes hmerge hindex ?_
      split
      · rename_i heq
        exact .inl ⟨rfl, h.eq_of_ofNat_eq hsize hb hindex heq⟩
      · exact .inr rfl

end Finished

/-! ## Leaving a finished block -/

theorem mem_controlSuccessors_of_soleOutput {g : Graph} {id target : NodeId} {name : Role.Name}
    (hname : name.isControl = true) (h : soleOutput g id name = .ok target) :
    target ∈ g.controlSuccessors id := by
  obtain ⟨e, he, hrole, rfl⟩ := soleOutput_eq_ok h
  refine List.mem_map.2 ⟨e, List.mem_filter.2 ⟨he, ?_⟩, rfl⟩
  rw [Role.isControl, hrole, hname]

theorem Decides.mem_exits {next onTrue onFalse : Nat} {condition : Register} {ending : List Instr}
    (h : Decides next condition onTrue onFalse ending) (htrue : (Int64.ofNat onTrue).toInt = onTrue)
    (hfalse : (Int64.ofNat onFalse).toInt = onFalse) {t : Int} :
    t ∈ exits next ending ↔ t = onTrue ∨ t = onFalse := by
  cases h with
  | fallsOnFalse hnext =>
      simp [exits, targets, falls, transfer_branchIf, Operand.ofBlock, htrue, hnext]
  | fallsOnTrue hnext =>
      simp [exits, targets, falls, transfer_branchUnless, Operand.ofBlock, hfalse, hnext, or_comm]
  | jumps =>
      simp [exits, targets, falls, transfer_branchIf, transfer_jumpTo, Operand.ofBlock, htrue, hfalse]

/-- The first instruction of a decision reads the condition, a jump behind it nothing. -/
theorem Decides.eq_cons {next onTrue onFalse : Nat} {condition : Register} {ending : List Instr}
    (h : Decides next condition onTrue onFalse ending) :
    ∃ x more, ending = x :: more ∧ (∀ came, reads came x = [condition]) ∧
      ∀ j ∈ more, ∀ came, reads came j = [] := by
  cases h with
  | fallsOnFalse _ => exact ⟨_, [], rfl, reads_conditional (.inl rfl) condition _, by simp⟩
  | fallsOnTrue _ => exact ⟨_, [], rfl, reads_conditional (.inr rfl) condition _, by simp⟩
  | jumps =>
      refine ⟨_, _, rfl, reads_conditional (.inl rfl) condition _, fun j hj => ?_⟩
      rw [List.mem_singleton.1 hj]
      exact reads_jumpTo _

section Exits

variable {g : Graph} {layout : Layout} {c : Chain} {b : Nat} {block : Block}
  (h : FinishedBlock g layout c b block)
  (hindex : ∀ node index, layout.index.lookup node = some index → (Int64.ofNat index).toInt = index)
include h hindex

/-- Control leaves a block without a finish: for the merge of its chain, or along
    control from a node of it. -/
theorem FinishedBlock.of_mem_exits {t : Nat} (ht : (t : Int) ∈ exits (b + 1) block) :
    (∀ y ∈ c.nodes, g.op y ≠ .finish) ∧ ∃ target, layout.index.lookup target = some t ∧
      (c.merge? = some target ∨ ∃ y ∈ c.nodes, target ∈ g.controlSuccessors y) := by
  cases h with
  | returns hnodes hop hplain hbefore hx =>
      rw [exits_append (transfer_of_plain hbefore hplain)] at ht
      simp [exits, targets, falls, hx.transfer_stop hop] at ht
  | @branches before id ifTrue ifFalse plain ending last condition onTrue onFalse hnodes hop hmerge hplain
      hbefore hlast hoperand htrue hfalse honTrue honFalse hending =>
      rw [exits_append (transfer_of_plain hbefore hplain)] at ht
      have hway := (hending.mem_exits (hindex _ _ honTrue) (hindex _ _ honFalse)).1 (by simpa using ht)
      refine ⟨fun y hy => ?_, ?_⟩
      · rw [hnodes] at hy
        rcases List.mem_append.1 hy with hy | hy
        · exact (hplain y hy).1
        · rw [List.mem_singleton.1 hy, hop]
          exact fun hne => by cases hne
      · have hid : id ∈ c.nodes := by
          rw [hnodes]
          simp
        rcases hway with hway | hway
        · obtain rfl : t = onTrue := by exact_mod_cast hway
          exact ⟨ifTrue, honTrue, .inr ⟨id, hid, mem_controlSuccessors_of_soleOutput rfl htrue⟩⟩
        · obtain rfl : t = onFalse := by exact_mod_cast hway
          exact ⟨ifFalse, honFalse, .inr ⟨id, hid, mem_controlSuccessors_of_soleOutput rfl hfalse⟩⟩
  | @flows merge index plain ending hplain hnodes hmerge hlookup hending =>
      rw [exits_append (transfer_of_plain hnodes hplain)] at ht
      refine ⟨fun y hy => (hplain y hy).1, merge, ?_, .inl hmerge⟩
      have hto := hindex merge index hlookup
      have htindex : (t : Int) = index := by
        rcases hending with ⟨rfl, hnext⟩ | rfl
        · simp only [exits, List.mem_singleton] at ht
          omega
        · simpa [exits, targets, falls, transfer_jumpTo, Operand.ofBlock, hto] using ht
      rw [hlookup, Option.some.injEq]
      exact_mod_cast htindex.symm

/-- A block without a finish whose chain ends at a merge leads to the merge. -/
theorem FinishedBlock.mem_exits_merge {merge : NodeId} (hmerge : c.merge? = some merge)
    (hfinish : ∀ y ∈ c.nodes, g.op y ≠ .finish) {t : Nat} (ht : layout.index.lookup merge = some t) :
    (t : Int) ∈ exits (b + 1) block := by
  cases h with
  | @returns before after id plain rest x hnodes hop hplain hbefore hx =>
      exact absurd hop (hfinish id (by rw [hnodes]; simp))
  | branches hnodes hop hnone =>
      rw [hmerge] at hnone
      cases hnone
  | @flows merge' index plain ending hplain hnodes hmerge' hlookup hending =>
      rw [hmerge, Option.some.injEq] at hmerge'
      subst hmerge'
      rw [ht, Option.some.injEq] at hlookup
      subst hlookup
      have hto := hindex merge t ht
      rw [exits_append (transfer_of_plain hnodes hplain)]
      rcases hending with ⟨rfl, hnext⟩ | rfl
      · simp only [exits, List.mem_singleton]
        omega
      · simp [exits, targets, falls, transfer_jumpTo, Operand.ofBlock, hto]

end Exits

/-- An instruction of a block stands among the first ones or behind them. -/
theorem append_eq_append_cons {α : Type} {plain ending ran rest : List α} {i : α}
    (h : plain ++ ending = ran ++ i :: rest) :
    (∃ more, plain = ran ++ i :: more) ∨ ∃ ran', ran = plain ++ ran' ∧ ending = ran' ++ i :: rest := by
  rcases List.append_eq_append_iff.1 h with ⟨ran', hran, hending⟩ | ⟨more, hplain, hrest⟩
  · exact .inr ⟨ran', hran, hending⟩
  · cases more with
    | nil => exact .inr ⟨[], by simpa using hplain.symm, hrest.symm⟩
    | cons j more =>
        obtain ⟨rfl, -⟩ := List.cons.inj hrest
        exact .inl ⟨more, hplain⟩

theorem writes_conditional (op : String) (condition target : Operand) :
    writes (conditional op condition target) = [] := rfl

theorem writes_jumpTo (target : Operand) : writes (jumpTo target) = [] := rfl

theorem Decides.writes_eq_nil {next onTrue onFalse : Nat} {condition : Register} {ending : List Instr}
    (h : Decides next condition onTrue onFalse ending) : ∀ j ∈ ending, writes j = [] := by
  cases h <;> simp [writes_conditional, writes_jumpTo]

/-- Nothing is written once control may have left a block. -/
theorem FinishedBlock.quiet {g : Graph} {layout : Layout} {c : Chain} {b : Nat} {block : Block}
    (h : FinishedBlock g layout c b block) {ran rest : List Instr} {i : Instr} (hsplit : block = ran ++ i :: rest)
    (hran : ∀ j ∈ ran, falls j = true) (hleaves : targets i ≠ []) : ∀ j ∈ rest, writes j = [] := by
  have hinPlain : ∀ {plain : List Instr}, (∀ j ∈ plain, transfer j = .next) → i ∉ plain := by
    intro plain hplain hi
    exact hleaves (by simp [targets, hplain i hi])
  cases h with
  | returns hnodes hop hplain hbefore hx =>
      have hstop := hx.transfer_stop hop
      rcases append_eq_append_cons hsplit with ⟨more, hmore⟩ | ⟨ran', rfl, hending⟩
      · exact absurd (by rw [hmore]; simp) (hinPlain (transfer_of_plain hbefore hplain))
      · cases ran' with
        | nil =>
            obtain ⟨rfl, -⟩ := List.cons.inj hending
            simp [targets, hstop] at hleaves
        | cons y ran' =>
            obtain ⟨rfl, -⟩ := List.cons.inj hending
            have hfalls := hran _ (List.mem_append_right _ List.mem_cons_self)
            simp [falls, hstop] at hfalls
  | branches hnodes hop hmerge hplain hbefore hx hoperand htrue hfalse honTrue honFalse hending =>
      rcases append_eq_append_cons hsplit with ⟨more, hmore⟩ | ⟨ran', rfl, heq⟩
      · exact absurd (by rw [hmore]; simp) (hinPlain (transfer_of_plain hbefore hplain))
      · intro j hj
        have hmem : j ∈ ran' ++ i :: rest := by simp [hj]
        rw [← heq] at hmem
        exact hending.writes_eq_nil j hmem
  | flows hplain hnodes hmerge hlookup hending =>
      rcases append_eq_append_cons hsplit with ⟨more, hmore⟩ | ⟨ran', rfl, heq⟩
      · exact absurd (by rw [hmore]; simp) (hinPlain (transfer_of_plain hnodes hplain))
      · intro j hj
        have hmem : j ∈ ran' ++ i :: rest := by simp [hj]
        rw [← heq] at hmem
        rcases hending with ⟨rfl, -⟩ | rfl
        · cases hmem
        · rw [List.mem_singleton.1 hmem, writes_jumpTo]

/-! ## Nodes and their instructions -/

/-- Registers belong to values. -/
def Numbered (g : Graph) : Prop :=
  ∀ id r, registerOf g id = .ok r → g.producesValue id = true ∧ r ≠ noRegister

/-- A node reads a register when control came from a block. -/
def ReadBy (g : Graph) (layout : Layout) (id : NodeId) (came : Option Nat) (r : Register) : Prop :=
  if g.op id = .phi then ∃ block, came = some block ∧ Supplies g id (fun e => ComesBy g layout id e block) r
  else Supplies g id (IsOperand g id) r

/-- An instruction writes the register of its node. -/
theorem Emits.mem_writes {g : Graph} (hnum : Numbered g) {layout : Layout} {id : NodeId} {i : Instr}
    (h : Emits g layout id i) {r : Register} : r ∈ writes i ↔ registerOf g id = .ok r := by
  have hdest := h.destination_eq
  unfold destination at hdest
  split at hdest
  · have hreg : registerOf g id = .ok i.dest := by
      unfold registerOf
      split at hdest
      · exact hdest
      · cases hdest
    have hne := (hnum id i.dest hreg).2
    rw [writes, if_neg hne, hreg, List.mem_singleton, Except.ok.injEq]
    exact eq_comm
  · rename_i hvalue
    rw [writes, if_pos (Except.ok.inj hdest).symm]
    exact ⟨fun hr => (by cases hr), fun hr => absurd (hnum id r hr).1 hvalue⟩

theorem Emits.mem_reads_iff {g : Graph} {layout : Layout}
    (hindex : ∀ node index, layout.index.lookup node = some index → (Int64.ofNat index).toInt = index)
    {id : NodeId} {i : Instr} (h : Emits g layout id i) (hbranch : g.op id ≠ .branch) (came : Option Nat)
    {r : Register} : r ∈ reads came i ↔ ReadBy g layout id came r := by
  rw [ReadBy]
  split
  · rename_i hphi
    exact h.mem_reads_phi hphi hindex came
  · rename_i hphi
    exact h.mem_reads hphi hbranch came

/-- Nodes that emit nothing have no register, so the instructions of a part of a chain
    write the registers of all its nodes. -/
theorem mem_writes_of_forall₂ {g : Graph} (hnum : Numbered g) {layout : Layout} {ids : List NodeId}
    {instrs : List Instr} (h : List.Forall₂ (Emits g layout) (ids.filter (emits g)) instrs) {r : Register} :
    (∃ j ∈ instrs, r ∈ writes j) ↔ ∃ x ∈ ids, registerOf g x = .ok r := by
  constructor
  · rintro ⟨j, hj, hr⟩
    obtain ⟨x, hx, hemit⟩ := forall₂_mem_right h hj
    exact ⟨x, List.mem_of_mem_filter hx, (hemit.mem_writes hnum).1 hr⟩
  · rintro ⟨x, hx, hr⟩
    have hemits : emits g x = true := by
      have hvalue := (hnum x r hr).1
      unfold emits
      cases hop : g.op x <;> first | rfl | simp [Graph.producesValue, hop, Op.producesValue] at hvalue
    obtain ⟨j, hj, hemit⟩ := forall₂_mem_left h (List.mem_filter.2 ⟨hx, hemits⟩)
    exact ⟨j, hj, (hemit.mem_writes hnum).2 hr⟩

/-- An instruction stands in a block for a node of its chain: what it reads is what
    the node reads, and the instructions before it write the registers of the nodes
    before it. -/
structure Executes (g : Graph) (layout : Layout) (c : Chain) (block : Block) (done : List NodeId) (id : NodeId)
    (ran : List Instr) (i : Instr) : Prop where
  split : ∃ rest, block = ran ++ i :: rest
  falls : ∀ j ∈ ran, falls j = true
  nodes : ∃ todo, c.nodes = done ++ id :: todo
  noFinish : ∀ x ∈ done, g.op x ≠ .finish
  emits : emits g id = true
  supplied : ∀ e ∈ g.inputs id, IsOperand g id e → ∃ r, registerOf g e.source = .ok r
  reads : ∀ came r, r ∈ reads came i ↔ ReadBy g layout id came r
  written : ∀ r, (∃ j ∈ ran, r ∈ writes j) ↔ ∃ x ∈ done, registerOf g x = .ok r

section Executes

variable {g : Graph} {layout : Layout} {c : Chain}
  (hindex : ∀ node index, layout.index.lookup node = some index → (Int64.ofNat index).toInt = index)
  (hnum : Numbered g)
include hindex hnum

omit hindex in
/-- The instruction behind those of plain nodes stands for the next node, if it reads what
    that node reads. -/
theorem executes_behind_plain {before after : List NodeId} {id : NodeId} (hnodes : c.nodes = before ++ id :: after)
    (hplain : ∀ y ∈ before, IsPlain g y) {ran rest : List Instr}
    (hran : List.Forall₂ (Emits g layout) (before.filter (emits g)) ran) (hemits : emits g id = true) {x i : Instr}
    (hx : Emits g layout id x) (hreads : ∀ came r, r ∈ reads came i ↔ ReadBy g layout id came r) :
    Executes g layout c (ran ++ i :: rest) before id ran i where
  split := ⟨rest, rfl⟩
  falls := fun j hj => by simp [Listing.falls, transfer_of_plain hran hplain j hj]
  nodes := ⟨after, hnodes⟩
  noFinish := fun y hy => (hplain y hy).1
  emits := hemits
  supplied := fun _ he => hx.registerOf_operand he
  reads := hreads
  written := fun _ => mem_writes_of_forall₂ hnum hran

/-- The instructions of plain nodes stand for them, in order. -/
theorem executes_of_emits {front behind done more : List NodeId} {plain ending ran rest : List Instr}
    {id : NodeId} {i : Instr} (hnodes : c.nodes = front ++ behind) (hplain : ∀ y ∈ front, IsPlain g y)
    (hfront : front = done ++ id :: more) (hinstrs : plain = ran ++ i :: rest)
    (hran : List.Forall₂ (Emits g layout) (done.filter (emits g)) ran) (hemits : emits g id = true)
    (hi : Emits g layout id i) : Executes g layout c (plain ++ ending) done id ran i := by
  have hdone : ∀ y ∈ done, IsPlain g y := fun y hy => hplain y (by rw [hfront]; simp [hy])
  have hid : IsPlain g id := hplain id (by rw [hfront]; simp)
  have hsplit : c.nodes = done ++ id :: (more ++ behind) := by
    rw [hnodes, hfront]
    simp
  rw [hinstrs, List.append_assoc, List.cons_append]
  exact executes_behind_plain hnum hsplit hdone hran hemits hi fun came r => hi.mem_reads_iff hindex hid.2 came

/-- An instruction among those of plain nodes stands for one of them. -/
theorem exists_executes_of_instr {front behind : List NodeId} {ran rest ending : List Instr} {i : Instr}
    (hnodes : c.nodes = front ++ behind) (hplain : ∀ y ∈ front, IsPlain g y)
    (hfront : List.Forall₂ (Emits g layout) (front.filter (emits g)) (ran ++ i :: rest)) :
    ∃ done id, Executes g layout c (ran ++ i :: rest ++ ending) done id ran i := by
  obtain ⟨done, id, todo, hsplit, hran, hemits, hi⟩ := forall₂_filter_split hfront
  exact ⟨done, id, executes_of_emits hindex hnum hnodes hplain hsplit rfl hran hemits hi⟩

/-- One of these nodes that emits an instruction has it among them. -/
theorem exists_executes_of_node {done more behind : List NodeId} {id : NodeId} {plain ending : List Instr}
    (hnodes : c.nodes = done ++ id :: more ++ behind) (hplain : ∀ y ∈ done ++ id :: more, IsPlain g y)
    (hfront : List.Forall₂ (Emits g layout) ((done ++ id :: more).filter (emits g)) plain) (hemits : emits g id = true) :
    ∃ ran i, Executes g layout c (plain ++ ending) done id ran i := by
  obtain ⟨ran, i, rest, hinstrs, hran, hi, -⟩ := forall₂_filter_of_split hfront hemits
  exact ⟨ran, i, executes_of_emits hindex hnum hnodes hplain rfl hinstrs hran hemits hi⟩

/-- A return stands for its finish. -/
theorem executes_finish {before after : List NodeId} {id : NodeId} (hnodes : c.nodes = before ++ id :: after)
    (hplain : ∀ y ∈ before, IsPlain g y) (hop : g.op id = .finish) {plain rest : List Instr}
    (hbefore : List.Forall₂ (Emits g layout) (before.filter (emits g)) plain) {x : Instr}
    (hx : Emits g layout id x) : Executes g layout c (plain ++ x :: rest) before id plain x := by
  have hbranch : g.op id ≠ .branch := by simp [hop]
  exact executes_behind_plain hnum hnodes hplain hbefore (by simp [emits, hop]) hx fun came r =>
    hx.mem_reads_iff hindex hbranch came

omit hindex in
/-- The transfer at the end of a block that decides stands for its branch. -/
theorem executes_branch {before : List NodeId} {id : NodeId} (hnodes : c.nodes = before ++ [id])
    (hplain : ∀ y ∈ before, IsPlain g y) (hop : g.op id = .branch) {plain rest : List Instr}
    (hbefore : List.Forall₂ (Emits g layout) (before.filter (emits g)) plain) {x i : Instr}
    (hx : Emits g layout id x) {condition : Register} (hreads : ∀ came, reads came i = [condition])
    (hoperand : ∀ r, r = condition ↔ Supplies g id (IsOperand g id) r) :
    Executes g layout c (plain ++ i :: rest) before id plain i := by
  refine executes_behind_plain hnum hnodes hplain hbefore (by simp [emits, hop]) hx fun came r => ?_
  rw [hreads came, List.mem_singleton, ReadBy, if_neg (by simp [hop]), hoperand r]

/-- An instruction that is reached and reads something stands for a node. -/
theorem FinishedBlock.executes_of_reads {b : Nat} {block : Block} (h : FinishedBlock g layout c b block)
    {ran rest : List Instr} {i : Instr} (hsplit : block = ran ++ i :: rest) (hfalls : ∀ j ∈ ran, falls j = true)
    {came : Option Nat} {r : Register} (hr : r ∈ reads came i) :
    ∃ done id, Executes g layout c block done id ran i := by
  cases h with
  | @returns before after id plain others x hnodes hop hplain hbefore hx =>
      rcases append_eq_append_cons hsplit with ⟨more, rfl⟩ | ⟨ran', rfl, hending⟩
      · exact exists_executes_of_instr hindex hnum hnodes hplain hbefore
      · cases ran' with
        | nil =>
            obtain ⟨rfl, rfl⟩ := List.cons.inj hending
            rw [List.append_nil]
            exact ⟨before, id, executes_finish hindex hnum hnodes hplain hop hbefore hx⟩
        | cons y ran' =>
            -- Behind the return nothing is reached.
            obtain ⟨rfl, -⟩ := List.cons.inj hending
            have hstop := hfalls x (by simp)
            simp [falls, hx.transfer_stop hop] at hstop
  | @branches before id ifTrue ifFalse plain ending last condition onTrue onFalse hnodes hop hmerge hplain
      hbefore hlast hoperand htrue hfalse honTrue honFalse hdecides =>
      rcases append_eq_append_cons hsplit with ⟨more, rfl⟩ | ⟨ran', rfl, hending⟩
      · exact exists_executes_of_instr hindex hnum hnodes hplain hbefore
      · obtain ⟨x, more, rfl, hx, hmore⟩ := hdecides.eq_cons
        cases ran' with
        | nil =>
            obtain ⟨rfl, rfl⟩ := List.cons.inj hending
            rw [List.append_nil]
            exact ⟨before, id, executes_branch hnum hnodes hplain hop hbefore hlast hx hoperand⟩
        | cons y ran' =>
            -- The jump behind a decision is reached, but reads nothing.
            obtain ⟨-, rfl⟩ := List.cons.inj hending
            rw [hmore i (by simp) came] at hr
            cases hr
  | @flows merge index plain ending hplain hnodes hmerge hlookup hending =>
      rcases append_eq_append_cons hsplit with ⟨more, rfl⟩ | ⟨ran', rfl, heq⟩
      · exact exists_executes_of_instr hindex hnum (List.append_nil _).symm hplain hnodes
      · have hmem : i ∈ ending := by
          rw [heq]
          simp
        rcases hending with ⟨rfl, -⟩ | rfl
        · cases hmem
        · rw [List.mem_singleton.1 hmem, reads_jumpTo] at hr
          cases hr

/-- A node that emits an instruction has it executed, unless a finish stands before it. -/
theorem FinishedBlock.executes {b : Nat} {block : Block} (h : FinishedBlock g layout c b block)
    {done todo : List NodeId} {id : NodeId} (hsplit : c.nodes = done ++ id :: todo)
    (hfinish : ∀ x ∈ done, g.op x ≠ .finish) (hemits : emits g id = true) :
    ∃ ran i, Executes g layout c block done id ran i := by
  cases h with
  | @returns before after last plain others x hnodes hop hplain hbefore hx =>
      rcases append_eq_append_cons (hnodes.symm.trans hsplit) with ⟨more, rfl⟩ | ⟨done', rfl, hending⟩
      · exact exists_executes_of_node hindex hnum hnodes hplain hbefore hemits
      · cases done' with
        | nil =>
            obtain ⟨rfl, rfl⟩ := List.cons.inj hending
            rw [List.append_nil]
            exact ⟨plain, x, executes_finish hindex hnum hnodes hplain hop hbefore hx⟩
        | cons y done' =>
            obtain ⟨rfl, -⟩ := List.cons.inj hending
            exact absurd hop (hfinish last (by simp))
  | @branches before last ifTrue ifFalse plain ending branch condition onTrue onFalse hnodes hop hmerge hplain
      hbefore hbranch hoperand htrue hfalse honTrue honFalse hdecides =>
      rcases append_eq_append_cons (hnodes.symm.trans hsplit) with ⟨more, rfl⟩ | ⟨done', rfl, hending⟩
      · exact exists_executes_of_node hindex hnum hnodes hplain hbefore hemits
      · obtain ⟨x, more, rfl, hx, -⟩ := hdecides.eq_cons
        cases done' with
        | nil =>
            obtain ⟨rfl, rfl⟩ := List.cons.inj hending
            rw [List.append_nil]
            exact ⟨plain, x, executes_branch hnum hnodes hplain hop hbefore hbranch hx hoperand⟩
        | cons y done' => simp at hending
  | @flows merge index plain ending hplain hnodes hmerge hlookup hending =>
      rw [hsplit] at hnodes hplain
      exact exists_executes_of_node hindex hnum (hsplit.trans (List.append_nil _).symm) hplain hnodes hemits

omit hindex in
/-- A block without a finish writes the registers of all nodes of its chain. -/
theorem FinishedBlock.mem_writes {b : Nat} {block : Block} (h : FinishedBlock g layout c b block)
    (hfinish : ∀ x ∈ c.nodes, g.op x ≠ .finish) {r : Register} :
    (∃ j ∈ block, r ∈ writes j) ↔ ∃ x ∈ c.nodes, registerOf g x = .ok r := by
  have hends : ∀ {plain ending : List Instr}, (∀ j ∈ ending, writes j = []) →
      ((∃ j ∈ plain ++ ending, r ∈ writes j) ↔ ∃ j ∈ plain, r ∈ writes j) := by
    intro plain ending hsilent
    constructor
    · rintro ⟨j, hj, hr⟩
      rcases List.mem_append.1 hj with hj | hj
      · exact ⟨j, hj, hr⟩
      · rw [hsilent j hj] at hr
        cases hr
    · rintro ⟨j, hj, hr⟩
      exact ⟨j, List.mem_append_left _ hj, hr⟩
  cases h with
  | @returns before after id plain others x hnodes hop hplain hbefore hx =>
      exact absurd hop (hfinish id (by rw [hnodes]; simp))
  | @branches before id ifTrue ifFalse plain ending x condition onTrue onFalse hnodes hop hmerge hplain hbefore
      hx hoperand htrue hfalse honTrue honFalse hdecides =>
      rw [hends hdecides.writes_eq_nil, mem_writes_of_forall₂ hnum hbefore, hnodes]
      constructor
      · rintro ⟨y, hy, hr⟩
        exact ⟨y, List.mem_append_left _ hy, hr⟩
      · rintro ⟨y, hy, hr⟩
        rcases List.mem_append.1 hy with hy | hy
        · exact ⟨y, hy, hr⟩
        · -- A branch has no value.
          have hvalue := (hnum y r hr).1
          rw [List.mem_singleton.1 hy] at hvalue
          simp [Graph.producesValue, hop, Op.producesValue] at hvalue
  | @flows merge index plain ending hplain hnodes hmerge hlookup hending =>
      rw [hends ?_, mem_writes_of_forall₂ hnum hnodes]
      rcases hending with ⟨rfl, -⟩ | rfl
      · simp
      · simp [writes_jumpTo]

end Executes

end SeaOfNodes.Listing
