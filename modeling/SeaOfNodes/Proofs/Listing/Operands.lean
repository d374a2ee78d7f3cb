/-
  SeaOfNodes.Proofs.Listing.Operands

  What an instruction reads is what its node reads in the graph.  A branch reads its
  condition, every other node the values it is given, and a send its receiver and
  its arguments besides; a phi reads the operand with the number of the merge input
  that control came in by.
-/
import SeaOfNodes.Proofs.Listing.Paths
import SeaOfNodes.Proofs.Listing.Shape
import SeaOfNodes.Proofs.Listing.StableSort

namespace SeaOfNodes.Listing

open Schedule

/-- The instruction of a node reads the value that an edge brings to the node. -/
def IsOperand (g : Graph) (id : NodeId) (e : Edge) : Prop :=
  if g.op id = .branch then e.role = .condition
  else e.role.name = .value ∨ (g.op id = .send ∧ (e.role = .receiver ∨
    ∃ n < min (argumentCount g id) ((g.inputsNamed id .arg).length + 1), e.role = .arg (Int64.ofNat n)))

theorem IsOperand.isValue {g : Graph} {id : NodeId} {e : Edge} (h : IsOperand g id e) :
    e.role.isValue = true := by
  unfold IsOperand at h
  split at h
  · rw [h]
    rfl
  · rcases h with hname | ⟨-, hrole | ⟨n, -, hrole⟩⟩
    · rw [Role.isValue, hname]
      rfl
    · rw [hrole]
      rfl
    · rw [hrole]
      rfl

/-- A register is that of the source of an operand. -/
def Supplies (g : Graph) (id : NodeId) (keep : Edge → Prop) (r : Register) : Prop :=
  ∃ e ∈ g.inputs id, keep e ∧ registerOf g e.source = .ok r

theorem isOperand_assignRegisters (g : Graph) (chains : List Chain) (id : NodeId) (e : Edge) :
    IsOperand (assignRegisters g chains) id e ↔ IsOperand g id e := by
  have hagree := agree_assignRegisters g chains
  unfold IsOperand Graph.inputsNamed
  rw [hagree.op, argumentCount_assignRegisters, hagree.inputsWhere_of_le fun _ _ => rfl]

/-! ## Parts of an instruction -/

theorem opcode_eq_phi {op : Op} : opcode op = opcode .phi ↔ op = .phi := by
  constructor
  · intro h
    cases op with
    | reserved offset => exact absurd h (reserved_name_ne offset (by decide))
    | phi => rfl
    | _ => revert h; decide
  · rintro rfl
    rfl

/-- Registers hold the values of edges, one by one. -/
abbrev Loads (g : Graph) (edges : List Edge) (registers : List Register) : Prop :=
  List.Forall₂ (fun e r => registerOf g e.source = .ok r) edges registers

theorem Loads.mem_iff {g : Graph} {edges : List Edge} {registers : List Register} (h : Loads g edges registers)
    {r : Register} : r ∈ registers ↔ ∃ e ∈ edges, registerOf g e.source = .ok r := by
  constructor
  · exact forall₂_mem_right h
  · rintro ⟨e, he, hr⟩
    obtain ⟨r', hr', hreg⟩ := forall₂_mem_left h he
    rw [hr] at hreg
    exact Except.ok.inj hreg ▸ hr'

theorem mem_inputsWhere {g : Graph} {id : NodeId} {role : Role} {e : Edge} :
    e ∈ g.inputsWhere id (· = role) ↔ e ∈ g.inputs id ∧ e.role = role := by
  simp [Graph.inputsWhere]

/-- The only edge under a role is loaded into the register of its source. -/
theorem loads_soleInput {g : Graph} {id source : NodeId} {role : Role} {r : Register}
    (h : soleInput g id role = .ok source) (hr : registerOf g source = .ok r) :
    Loads g (g.inputsWhere id (· = role)) [r] := by
  obtain ⟨e, honly, -, -, rfl⟩ := soleInput_eq_ok h
  rw [honly]
  exact .cons hr .nil

/-- The only edge under a role supplies its register. -/
theorem supplies_of_soleInput {g : Graph} {id source : NodeId} {role : Role} {r' : Register}
    (h : soleInput g id role = .ok source) (hr' : registerOf g source = .ok r') (r : Register) :
    r = r' ↔ Supplies g id (fun e => e.role = role) r := by
  rw [← List.mem_singleton, (loads_soleInput h hr').mem_iff]
  simp only [mem_inputsWhere, Supplies, and_assoc]

theorem mem_operandEdges {g : Graph} {id : NodeId} {e : Edge} :
    e ∈ operandEdges g id ↔ e ∈ g.inputs id ∧ e.role.name = .value := by
  rw [operandEdges, sortEdges, (StableSort.perm_sort _ _).mem_iff]
  simp [Graph.inputsNamed, Graph.inputsWhere]

/-- No difference of the numbers of edges wraps. -/
def NumbersFit (edges : List Edge) : Prop :=
  ∀ a ∈ edges, ∀ b ∈ edges, (a.role.slot - b.role.slot).toInt = a.role.slot.toInt - b.role.slot.toInt

/-- That is so if all have numbers, and these are as roles are written, from zero up. -/
theorem numbersFit_of_nonneg {edges : List Edge} (h : ∀ e ∈ edges, 0 ≤ e.role.slot) : NumbersFit edges := by
  intro a ha b hb
  have hlower := Int64.le_iff_toInt_le.1 (h a ha)
  have hlower' := Int64.le_iff_toInt_le.1 (h b hb)
  have hzero : (0 : Int64).toInt = 0 := rfl
  have hupper := a.role.slot.toInt_lt
  have hupper' := b.role.slot.toInt_lt
  rw [Int64.toInt_sub, Int.bmod_eq_of_le] <;> omega

/-- Then edges are in the order of their numbers, equal ones in the given order. -/
theorem orders_sortEdges {edges : List Edge} (h : NumbersFit edges) :
    StableSort.Orders (fun e => e.role.slot.toInt) edges (sortEdges edges) := by
  refine StableSort.orders_sort fun a ha b hb => ?_
  rw [goesBefore, decide_eq_decide, Int64.lt_iff_toInt_lt, h a ha b hb]
  have hzero : (0 : Int64).toInt = 0 := rfl
  omega

/-- The registers among operands. -/
def operandRegisters (operands : List Operand) : List Register :=
  (operands.filter fun operand => operand.kind = 1).map Operand.register

/-- The register of an argument of a send. -/
def argumentRef (g : Graph) (id : NodeId) (n : Nat) : Except Error Ref := do
  return .register (← registerOf g (← soleInput g id (.arg (Int64.ofNat n))))

theorem sendOperands_eq_ok {g : Graph} {id : NodeId} {refs : List Ref} (h : sendOperands g id = .ok refs) :
    ∃ source receiver name args, soleInput g id .receiver = .ok source ∧ registerOf g source = .ok receiver ∧
      List.Forall₂ (fun n ref => argumentRef g id n = .ok ref)
        (List.range (min (argumentCount g id) ((g.inputsNamed id .arg).length + 1))) args ∧
      refs = .register receiver :: .selector name :: args := by
  rw [sendOperands] at h
  obtain ⟨source, hsource, h⟩ := bind_eq_ok.1 h
  obtain ⟨receiver, hreceiver, h⟩ := bind_eq_ok.1 h
  cases hname : (g.props id).str? Props.selector with
  | none =>
      rw [hname] at h
      cases h
  | some name =>
      rw [hname] at h
      obtain ⟨_, -, h⟩ := bind_eq_ok.1 h
      obtain ⟨args, hargs, h⟩ := bind_eq_ok.1 h
      cases h
      exact ⟨source, receiver, _, args, hsource, hreceiver, mapM_eq_ok.1 hargs, rfl⟩

/-- The edges of the first arguments of a send, in their order. -/
def argumentEdges (g : Graph) (id : NodeId) (ns : List Nat) : List Edge :=
  ns.flatMap fun n => g.inputsWhere id (· = .arg (Int64.ofNat n))

/-- The edges of the receiver and the arguments of a send, in this order. -/
def sendEdges (g : Graph) (id : NodeId) : List Edge :=
  g.inputsWhere id (· = .receiver) ++
    argumentEdges g id (List.range (min (argumentCount g id) ((g.inputsNamed id .arg).length + 1)))

/-- The register operands of arguments are those of the sources of their edges. -/
theorem loads_arguments {g : Graph} {id : NodeId} {layout : Layout} {ns : List Nat} {refs : List Ref}
    {operands : List Operand} (hrefs : List.Forall₂ (fun n ref => argumentRef g id n = .ok ref) ns refs)
    (hresolve : List.Forall₂ (fun ref operand => layout.resolve ref = .ok operand) refs operands) :
    Loads g (argumentEdges g id ns) (operandRegisters operands) := by
  induction hrefs generalizing operands with
  | nil =>
      cases hresolve
      exact .nil
  | @cons n ref ns refs hn _ ih =>
      cases hresolve with
      | @cons _ operand _ operands hoperand hrest =>
          obtain ⟨x, hx, hn⟩ := bind_eq_ok.1 hn
          obtain ⟨rx, hrx, hn⟩ := bind_eq_ok.1 hn
          cases hn
          cases hoperand
          have hsplit : operandRegisters (.ofRegister rx :: operands) = [rx] ++ operandRegisters operands := by
            simp [operandRegisters, Operand.ofRegister]
          rw [hsplit, argumentEdges, List.flatMap_cons]
          exact List.rel_append (loads_soleInput hx hrx) (ih hrest)

/-- The register operands of a send are its receiver and its arguments. -/
theorem loads_sendOperands {g : Graph} {id : NodeId} {layout : Layout} {refs : List Ref}
    {operands : List Operand} (hrefs : sendOperands g id = .ok refs)
    (hresolve : List.Forall₂ (fun ref operand => layout.resolve ref = .ok operand) refs operands) :
    Loads g (sendEdges g id) (operandRegisters operands) := by
  obtain ⟨source, receiver, name, args, hsource, hreceiver, hargs, rfl⟩ := sendOperands_eq_ok hrefs
  match operands, hresolve with
  | _ :: _ :: operands, .cons hfirst (.cons hsecond hrest) =>
      cases hfirst
      cases hsecond
      have hsplit : operandRegisters (.ofRegister receiver :: .ofSelector name :: operands)
          = [receiver] ++ operandRegisters operands := by
        simp [operandRegisters, Operand.ofRegister, Operand.ofSelector]
      rw [hsplit]
      exact List.rel_append (loads_soleInput hsource hreceiver) (loads_arguments hargs hrest)

theorem mem_sendEdges {g : Graph} {id : NodeId} {e : Edge} : e ∈ sendEdges g id ↔
    e ∈ g.inputs id ∧ (e.role = .receiver ∨
      ∃ n < min (argumentCount g id) ((g.inputsNamed id .arg).length + 1), e.role = .arg (Int64.ofNat n)) := by
  simp only [sendEdges, argumentEdges, List.mem_append, List.mem_flatMap, List.mem_range, mem_inputsWhere]
  constructor
  · rintro (⟨he, hrole⟩ | ⟨n, hn, he, hrole⟩)
    · exact ⟨he, .inl hrole⟩
    · exact ⟨he, .inr ⟨n, hn, hrole⟩⟩
  · rintro ⟨he, hrole | ⟨n, hn, hrole⟩⟩
    · exact .inl ⟨he, hrole⟩
    · exact .inr ⟨n, hn, he, hrole⟩

/-- A phi reads the value of an edge when control comes from a block: the edge has
    the number of the input by which the block flows into the merge of the phi. -/
def ComesBy (g : Graph) (layout : Layout) (phi : NodeId) (e : Edge) (block : Nat) : Prop :=
  e.role.name = .value ∧ ∃ n merge first, e.role.index = some n ∧ g.phiMerge? phi = some merge ∧
    layout.incoming.lookup (merge, n) = some first ∧ layout.index.lookup first = some block

/-- A pair of a phi is the block of a merge input and the register for it. -/
theorem phiPair_eq_ok {g : Graph} {layout : Layout} {phi merge : NodeId} {e : Edge} {pair : List Ref}
    {operands : List Operand} (hpair : phiPair g phi merge e = .ok pair)
    (hresolve : List.Forall₂ (fun ref operand => layout.resolve ref = .ok operand) pair operands) :
    ∃ n first block r, e.role.index = some n ∧ layout.incoming.lookup (merge, n) = some first ∧
      layout.index.lookup first = some block ∧ registerOf g e.source = .ok r ∧
      operands = [.ofBlock (Int64.ofNat block), .ofRegister r] := by
  unfold phiPair at hpair
  split at hpair
  · cases hpair
  · rename_i n hn
    obtain ⟨r, hr, hpair⟩ := bind_eq_ok.1 hpair
    cases hpair
    match operands, hresolve with
    | [_, _], .cons hblock (.cons hvalue .nil) =>
        rw [Layout.resolve] at hblock
        cases hvalue
        split at hblock
        · rename_i first hfirst
          obtain ⟨block, hindex, rfl⟩ := blockOf_eq_ok hblock
          exact ⟨n, first, block, r, hn, hfirst, hindex, hr, rfl⟩
        · cases hblock

/-- The registers among the pairs of a phi are those of its operands. -/
theorem loads_phiPairs {g : Graph} {layout : Layout} {phi merge : NodeId} {edges : List Edge}
    {pairs : List (List Ref)} {operands : List Operand}
    (hpairs : List.Forall₂ (fun e pair => phiPair g phi merge e = .ok pair) edges pairs)
    (hresolve : List.Forall₂ (fun ref operand => layout.resolve ref = .ok operand) pairs.flatten operands) :
    Loads g edges (operandRegisters operands) := by
  induction hpairs generalizing operands with
  | nil =>
      cases hresolve
      exact .nil
  | @cons e pair edges pairs hpair _ ih =>
      rw [List.flatten_cons] at hresolve
      obtain ⟨these, those, rfl, hthese, hthose⟩ := forall₂_append_left hresolve
      obtain ⟨n, first, block, r, -, -, -, hr, rfl⟩ := phiPair_eq_ok hpair hthese
      have hsplit : operandRegisters ([.ofBlock (Int64.ofNat block), .ofRegister r] ++ those)
          = r :: operandRegisters those := by
        simp [operandRegisters, Operand.ofBlock, Operand.ofRegister]
      rw [hsplit]
      exact .cons hr (ih hthose)

/-- The edge of a phi is read when control comes from the block that flows into the merge by
    the input with the number of the edge. -/
def FlowsBy (layout : Layout) (merge : NodeId) (e : Edge) (block : Nat) : Prop :=
  ∃ n first, e.role.index = some n ∧ layout.incoming.lookup (merge, n) = some first ∧
    layout.index.lookup first = some block

/-- That is one block at most. -/
theorem FlowsBy.unique {layout : Layout} {merge : NodeId} {e : Edge} {block block' : Nat}
    (h : FlowsBy layout merge e block) (h' : FlowsBy layout merge e block') : block = block' := by
  obtain ⟨n, first, hn, hfirst, hblock⟩ := h
  obtain ⟨n', first', hn', hfirst', hblock'⟩ := h'
  obtain rfl := Option.some.inj (hn.symm.trans hn')
  obtain rfl := Option.some.inj (hfirst.symm.trans hfirst')
  exact Option.some.inj (hblock.symm.trans hblock')

/-- What a phi reads among its pairs. -/
theorem mem_phiReads {g : Graph} {layout : Layout} {phi merge : NodeId} {edges : List Edge}
    {pairs : List (List Ref)} {operands : List Operand}
    (hindex : ∀ node block, layout.index.lookup node = some block → (Int64.ofNat block).toInt = block)
    (hpairs : List.Forall₂ (fun e pair => phiPair g phi merge e = .ok pair) edges pairs)
    (hresolve : List.Forall₂ (fun ref operand => layout.resolve ref = .ok operand) pairs.flatten operands)
    {came : Nat} {r : Register} :
    r ∈ phiReads came operands ↔ ∃ e ∈ edges, FlowsBy layout merge e came ∧ registerOf g e.source = .ok r := by
  induction hpairs generalizing operands with
  | nil =>
      cases hresolve
      simp [phiReads]
  | @cons e pair edges pairs hpair _ ih =>
      rw [List.flatten_cons] at hresolve
      obtain ⟨these, those, rfl, hthese, hthose⟩ := forall₂_append_left hresolve
      obtain ⟨n, first, block, r', hn, hfirst, hblock, hr', rfl⟩ := phiPair_eq_ok hpair hthese
      have hflows : FlowsBy layout merge e block := ⟨n, first, hn, hfirst, hblock⟩
      have hhere : (Operand.ofBlock (Int64.ofNat block)).block.toInt = (came : Int) ↔ block = came := by
        rw [Operand.ofBlock, hindex first block hblock]
        exact Int.natCast_inj
      rw [List.cons_append, List.cons_append, List.nil_append, phiReads, List.exists_mem_cons_iff]
      by_cases hcame : block = came
      · subst hcame
        have hregister : (Operand.ofRegister r').register = r' := rfl
        rw [if_pos (hhere.2 rfl), List.mem_cons, ih hthose, hr', Except.ok.injEq, hregister]
        simp only [hflows, true_and, eq_comm (a := r)]
      · have hother : ¬ FlowsBy layout merge e came := fun h => hcame (hflows.unique h)
        rw [if_neg (mt hhere.1 hcame), ih hthose]
        simp only [hother, false_and, false_or]

/-! ## Whole instructions -/

/-- The registers that an instruction reads, whichever way control came. -/
def registersRead (x : Instr) : List Register := x.args ++ operandRegisters x.trailing

theorem registersRead_conditional (op : String) (r : Register) (target : Int64) :
    registersRead (conditional op (.ofRegister r) (.ofBlock target)) = [r] := by
  simp [registersRead, conditional, operandRegisters, Operand.ofRegister, Operand.ofBlock]

/-- The edges whose values the instruction of a node reads, in the order in which it reads
    them. -/
def emittedEdges (g : Graph) (id : NodeId) : List Edge :=
  if g.op id = .branch then operandEdges g id ++ g.inputsWhere id (· = .condition)
  else if g.op id = .send then operandEdges g id ++ sendEdges g id
  else operandEdges g id

theorem emittedEdges_assignRegisters (g : Graph) (chains : List Chain) (id : NodeId) :
    emittedEdges (assignRegisters g chains) id = emittedEdges g id := by
  have hagree := agree_assignRegisters g chains
  unfold emittedEdges sendEdges argumentEdges operandEdges Graph.inputsNamed Graph.inputsWhere
  rw [hagree.op, argumentCount_assignRegisters, hagree.inputs_eq]

/-- A node that is no branch reads its operands and nothing else. -/
theorem mem_emittedEdges {g : Graph} {id : NodeId} (hbranch : g.op id ≠ .branch) {e : Edge} :
    e ∈ emittedEdges g id ↔ e ∈ g.inputs id ∧ IsOperand g id e := by
  rw [emittedEdges, IsOperand, if_neg hbranch, if_neg hbranch]
  split
  case isTrue hs =>
    rw [List.mem_append, mem_operandEdges, mem_sendEdges, ← and_or_left]
    simp only [hs, true_and]
  case isFalse hs =>
    rw [mem_operandEdges]
    simp only [hs, false_and, or_false]

/-- What is read comes in by edges of values. -/
theorem isValue_of_mem_emittedEdges {g : Graph} {id : NodeId} {e : Edge} (h : e ∈ emittedEdges g id) :
    e ∈ g.inputs id ∧ e.role.isValue = true := by
  by_cases hbranch : g.op id = .branch
  · rw [emittedEdges, if_pos hbranch, List.mem_append, mem_operandEdges, mem_inputsWhere] at h
    rcases h with ⟨he, hname⟩ | ⟨he, hrole⟩
    · exact ⟨he, by rw [Role.isValue, hname]; rfl⟩
    · exact ⟨he, by rw [hrole]; rfl⟩
  · obtain ⟨he, hoperand⟩ := (mem_emittedEdges hbranch).1 h
    exact ⟨he, hoperand.isValue⟩

/-- Every node reads its operands, a branch its condition. -/
theorem mem_emittedEdges_of_isOperand {g : Graph} {id : NodeId} {e : Edge} (he : e ∈ g.inputs id)
    (hoperand : IsOperand g id e) : e ∈ emittedEdges g id := by
  by_cases hbranch : g.op id = .branch
  · rw [IsOperand, if_pos hbranch] at hoperand
    rw [emittedEdges, if_pos hbranch]
    exact List.mem_append_right _ (mem_inputsWhere.2 ⟨he, hoperand⟩)
  · exact (mem_emittedEdges hbranch).2 ⟨he, hoperand⟩

namespace Emits

variable {g : Graph} {layout : Layout} {id : NodeId} {i : Instr} (h : Emits g layout id i)
include h

/-- The registers of an instruction are those of the sources of the edges it reads. -/
theorem loads : Loads g (emittedEdges g id) (registersRead i) := by
  have hbranch := h.trailing_branch
  obtain ⟨d, hd, hi⟩ := h
  obtain ⟨-, -, -, hargs, htrailing⟩ := resolveDraft_eq_ok hi
  have hdraft := emitNode_eq_ok hd
  rw [registersRead, hargs, emittedEdges]
  by_cases hop : g.op id = .phi
  · obtain ⟨hnone, hoperands⟩ := hdraft.phi hop
    unfold phiOperands at hoperands
    split at hoperands
    · cases hoperands
    · obtain ⟨pairs, hpairs, hflat⟩ := bind_eq_ok.1 hoperands
      rw [← pure_eq_ok.1 hflat] at htrailing
      rw [hop, if_neg (by simp), if_neg (by simp), hnone, List.nil_append]
      exact loads_phiPairs (mapM_eq_ok.1 hpairs) htrailing
  · have hloads := hdraft.args hop
    split
    case isTrue hb =>
      obtain ⟨ways, hlist⟩ := hbranch hb
      have hread : operandRegisters i.trailing = [ways.register] := by
        simp [hlist, operandRegisters, Operand.ofRegister, Operand.ofBlock]
      rw [hread]
      exact List.rel_append hloads (loads_soleInput ways.condition_eq ways.register_eq)
    case isFalse hb =>
      split
      case isTrue hs => exact List.rel_append hloads (loads_sendOperands (hdraft.send hs) htrailing)
      case isFalse hs =>
        rw [hdraft.plain hop hb hs] at htrailing
        rw [List.forall₂_nil_left_iff.1 htrailing]
        simpa [operandRegisters] using hloads

/-- The instruction of a node that is no branch reads the node's operands. -/
theorem mem_registersRead (hbranch : g.op id ≠ .branch) {r : Register} :
    r ∈ registersRead i ↔ Supplies g id (IsOperand g id) r := by
  rw [h.loads.mem_iff]
  simp only [mem_emittedEdges hbranch, Supplies, and_assoc]

/-- If it is no phi either, it reads them whichever way control came. -/
theorem mem_reads (hphi : g.op id ≠ .phi) (hbranch : g.op id ≠ .branch) (came : Option Nat) {r : Register} :
    r ∈ reads came i ↔ Supplies g id (IsOperand g id) r := by
  have hop : i.op ≠ opcode .phi := by rwa [h.op_eq, ne_eq, opcode_eq_phi]
  rw [reads, if_neg hop]
  exact h.mem_registersRead hbranch

/-- The operands of a node that emits an instruction have registers. -/
theorem registerOf_operand {e : Edge} (he : e ∈ g.inputs id) (hoperand : IsOperand g id e) :
    ∃ r, registerOf g e.source = .ok r := by
  obtain ⟨r, -, hr⟩ := forall₂_mem_left h.loads (mem_emittedEdges_of_isOperand he hoperand)
  exact ⟨r, hr⟩

/-- A phi reads the operands for the block that control came from. -/
theorem mem_reads_phi (hphi : g.op id = .phi)
    (hindex : ∀ node block, layout.index.lookup node = some block → (Int64.ofNat block).toInt = block)
    (came : Option Nat) {r : Register} :
    r ∈ reads came i ↔ ∃ block, came = some block ∧ Supplies g id (fun e => ComesBy g layout id e block) r := by
  have hop : i.op = opcode .phi := by rw [h.op_eq, hphi]
  obtain ⟨d, hd, hi⟩ := h
  obtain ⟨-, -, -, hargs, htrailing⟩ := resolveDraft_eq_ok hi
  obtain ⟨hnoArgs, hoperands⟩ := (emitNode_eq_ok hd).phi hphi
  unfold phiOperands at hoperands
  split at hoperands
  · cases hoperands
  · rename_i merge hmerge
    obtain ⟨pairs, hpairs, hflat⟩ := bind_eq_ok.1 hoperands
    rw [← pure_eq_ok.1 hflat] at htrailing
    rw [reads, if_pos hop, hargs, hnoArgs, List.nil_append]
    cases came with
    | none => simp
    | some block =>
        rw [Option.map_some, Option.getD_some, mem_phiReads hindex (mapM_eq_ok.1 hpairs) htrailing]
        constructor
        · rintro ⟨e, he, ⟨n, first, hn, hfirst, hblock⟩, hr⟩
          obtain ⟨he, hname⟩ := mem_operandEdges.1 he
          exact ⟨block, rfl, e, he, ⟨hname, n, merge, first, hn, hmerge, hfirst, hblock⟩, hr⟩
        · rintro ⟨block', hblock', e, he, ⟨hname, n, merge', first, hn, hmerge', hfirst, hblock⟩, hr⟩
          cases hblock'
          rw [hmerge, Option.some.injEq] at hmerge'
          subst hmerge'
          exact ⟨e, mem_operandEdges.2 ⟨he, hname⟩, ⟨n, first, hn, hfirst, hblock⟩, hr⟩

end Emits

/-- The condition of a branch is its only operand. -/
theorem supplies_of_condition {g : Graph} {id condition : NodeId} {register : Register}
    (hbranch : g.op id = .branch) (hcondition : soleInput g id .condition = .ok condition)
    (hregister : registerOf g condition = .ok register) (r : Register) :
    r = register ↔ Supplies g id (IsOperand g id) r := by
  rw [supplies_of_soleInput hcondition hregister]
  simp only [Supplies, IsOperand, if_pos hbranch]

theorem reads_conditional {op : String} (hop : op = branchIfOp ∨ op = branchUnlessOp) (r : Register)
    (target : Int64) (came : Option Nat) :
    reads came (conditional op (.ofRegister r) (.ofBlock target)) = [r] := by
  have hphi : op ≠ opcode .phi := by rcases hop with rfl | rfl <;> decide
  simp [reads, conditional, hphi, Operand.ofRegister, Operand.ofBlock]

theorem reads_jumpTo (target : Int64) (came : Option Nat) : reads came (jumpTo (.ofBlock target)) = [] := by
  have hphi : jumpOp ≠ opcode .phi := by decide
  simp [reads, jumpTo, hphi, Operand.ofBlock]

end SeaOfNodes.Listing
