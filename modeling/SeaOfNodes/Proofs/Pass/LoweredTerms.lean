/-
  SeaOfNodes.Proofs.Pass.LoweredTerms

  What lowering computes.  On terms lowering is a rewriting: every addition of small
  integers becomes one of machine integers between conversions, and every test for small
  integers one of tags.  A run of the pass does this to graphs: where a node that is still
  there read a term before it reads the rewritten term afterwards, however the additions
  feed each other and in whatever order they are lowered.
-/
import SeaOfNodes.Proofs.Graph.Terms
import SeaOfNodes.Proofs.Pass.LoweredOperands

namespace SeaOfNodes.Pass.Tagging

open SeaOfNodes.Graph

/-! ## Lowering terms -/

/-- The properties that a lowered operation keeps: the source line. -/
def carried (props : Props) : Props :=
  match props.get? Props.line with
  | some line => Props.empty.set Props.line line
  | none => .empty

theorem carriedProps_eq (g : Graph) (id : NodeId) : carriedProps g id = carried (g.props id) := rfl

/-- A conversion of a term. -/
def convertTerm (op : Op) (t : Term) : Term := .node op .empty [(.value, t)]

/-- What computes an operation over operands that are lowered: an addition of small
    integers adds machine integers, a test for small integers looks at tags. -/
def lowerNode (op : Op) (props : Props) (operands : List (Role × Term)) : Term :=
  if op = .fixnumAdd then
    .node .int64Add (carried props) (operands.map fun x => (x.1, convertTerm .untagFixnum x.2))
  else if op = .kindIs ∧ props.str? Props.kind = some fixnum then .node .isTaggedFixnum (carried props) operands
  else .node op props operands

mutual

/-- A term with every addition and test in it lowered.  The sum of an addition is
    tagged. -/
def lowerTerm : Term → Term
  | .node op props operands =>
    let lowered := lowerNode op props (lowerTerms operands)
    if op = .fixnumAdd then convertTerm .tagFixnum lowered else lowered

def lowerTerms : List (Role × Term) → List (Role × Term)
  | [] => []
  | (role, t) :: rest => (role, lowerTerm t) :: lowerTerms rest

end

/-- What computes a term, before it is tagged. -/
def coreTerm : Term → Term
  | .node op props operands => lowerNode op props (lowerTerms operands)

/-- The rewriting of an addition of two operands. -/
example (props : Props) (first second : Role) (a b : Term) :
    lowerTerm (.node .fixnumAdd props [(first, a), (second, b)])
      = convertTerm .tagFixnum (.node .int64Add (carried props)
          [(first, convertTerm .untagFixnum (lowerTerm a)), (second, convertTerm .untagFixnum (lowerTerm b))]) := rfl

theorem lowerTerms_eq_map (operands : List (Role × Term)) :
    lowerTerms operands = operands.map fun x => (x.1, lowerTerm x.2) := by
  induction operands with
  | nil => rfl
  | cons x rest ih =>
      rw [lowerTerms, ih]
      rfl

/-! ## Lowering graphs -/

section Replaces

variable {g s : Graph} {named : NodeId → NodeId} {done : List NodeId} (hdone : ∀ id, id ∈ done ↔ Lowerable g id)
include hdone

/-- What hands on the value of a node computes the lowered term, once the node that the
    value comes from computes it up to the tag. -/
theorem denotes_of_supplied {t : Term} {a b : NodeId} (ht : g.Denotes t a) (hcore : s.Denotes (coreTerm t) (named a))
    (hb : Supplied g s named done a b) : s.Denotes (lowerTerm t) b := by
  obtain ⟨op, props, terms⟩ := t
  obtain ⟨-, rfl, -, -⟩ := denotes_node.1 ht
  cases hb with
  | tagged _ hadd htag =>
      rw [lowerTerm, if_pos hadd]
      refine denotes_node.2 ⟨htag.live, htag.op_eq, htag.props_eq, ?_⟩
      rw [htag.operands_eq]
      exact .cons ⟨rfl, hcore⟩ .nil
  | plain hnot =>
      rw [lowerTerm, if_neg fun hadd => hnot ((hdone a).2 (.inl hadd)) hadd]
      exact hcore

variable (h : Replaces g s named done)
include h

section Operands

variable {terms : List (Role × Term)} {id : NodeId} (hlive : g.has id = true)
  (hterms : List.Forall₂ (fun x e => e.role = x.1 ∧ g.Denotes x.2 e.source) terms (g.operands id))
  (hcore : ∀ x ∈ terms, ∀ {a : NodeId}, g.Denotes x.2 a → s.Denotes (coreTerm x.2) (named a))
include hlive hterms hcore

/-- A node that is no addition reads the lowered terms of its operands. -/
theorem denotes_operands (hadd : g.op id ≠ .fixnumAdd) :
    List.Forall₂ (fun x e => e.role = x.1 ∧ s.Denotes x.2 e.source) (lowerTerms terms) (s.operands (named id)) := by
  rw [lowerTerms_eq_map, List.forall₂_map_left_iff]
  refine forall₂_imp_of_mem (forall₂_comp hterms (h.refed id hlive)) fun x hx e' ⟨e, ⟨hrole, hxe⟩, hrole', hread⟩ => ?_
  refine ⟨hrole'.trans hrole, ?_⟩
  cases hread with
  | untagged _ hop _ _ => exact absurd hop hadd
  | plain _ hab => exact denotes_of_supplied hdone hxe (hcore x hx hxe) hab

/-- What an addition has become reads them untagged. -/
theorem denotes_untagged_operands (hadd : g.op id = .fixnumAdd) :
    List.Forall₂ (fun x e => e.role = x.1 ∧ s.Denotes x.2 e.source)
      ((lowerTerms terms).map fun x => (x.1, convertTerm .untagFixnum x.2)) (s.operands (named id)) := by
  rw [lowerTerms_eq_map, List.map_map, List.forall₂_map_left_iff]
  refine forall₂_imp_of_mem (forall₂_comp hterms (h.refed id hlive)) fun x hx e' ⟨e, ⟨hrole, hxe⟩, hrole', hread⟩ => ?_
  refine ⟨hrole'.trans hrole, ?_⟩
  cases hread with
  | untagged _ _ huntag hab =>
      refine denotes_node.2 ⟨huntag.live, huntag.op_eq, huntag.props_eq, ?_⟩
      rw [huntag.operands_eq]
      exact .cons ⟨rfl, denotes_of_supplied hdone hxe (hcore x hx hxe) hab⟩ .nil
  | plain hnot _ => exact absurd hadd (hnot ((hdone id).2 (.inl hadd)))

end Operands

/-- What a node is named computes the term of the node up to the tag. -/
theorem denotes_coreTerm {t : Term} {id : NodeId} (ht : g.Denotes t id) : s.Denotes (coreTerm t) (named id) := by
  induction t using Term.induct generalizing id with
  | node op props terms ih =>
      obtain ⟨hlive, rfl, rfl, hterms⟩ := denotes_node.1 ht
      rw [coreTerm, lowerNode]
      by_cases hadd : g.op id = .fixnumAdd
      · obtain ⟨-, -, hop, hprops⟩ := h.replaced id ((hdone id).2 (.inl hadd))
        rw [if_pos hadd]
        exact denotes_node.2 ⟨h.has id hlive, hop.trans (if_pos hadd), hprops.trans (carriedProps_eq g id),
          denotes_untagged_operands hdone h hlive hterms ih hadd⟩
      · have hoperands := denotes_operands hdone h hlive hterms ih hadd
        rw [if_neg hadd]
        by_cases htest : g.op id = .kindIs ∧ (g.props id).str? Props.kind = some fixnum
        · have hmem : id ∈ done := by
            refine (hdone id).2 (.inr ⟨htest.1, ?_⟩)
            rw [isFixnumTest, htest.2]
            rfl
          obtain ⟨-, -, hop, hprops⟩ := h.replaced id hmem
          rw [if_pos htest]
          exact denotes_node.2 ⟨h.has id hlive, hop.trans (if_neg hadd), hprops.trans (carriedProps_eq g id), hoperands⟩
        · have hnot : id ∉ done := by
            rw [hdone]
            rintro (hop | ⟨hop, hkind⟩)
            · exact hadd hop
            · exact htest ⟨hop, eq_of_beq hkind⟩
          obtain ⟨hname, hop, hprops⟩ := h.kept id hlive hnot
          rw [if_neg htest]
          refine denotes_node.2 ⟨h.has id hlive, ?_, ?_, hoperands⟩
          · rw [hname, hop]
          · rw [hname, hprops]

end Replaces

/-- A graph means after lowering what it meant before.  Nodes that are not lowered keep
    their operation and properties, and read the lowered terms of what they read, under the
    same roles and in the same order; every other node is replaced by a new one that
    computes its term; and control leads where it led. -/
structure KeepsMeaning (g g' : Graph) (named : NodeId → NodeId) : Prop where
  has : ∀ id, g.has id = true → g'.has (named id) = true
  injective : ∀ a b, g.has a = true → g.has b = true → named a = named b → a = b
  survives : ∀ id, g.has id = true → (g'.has id = true ↔ ¬ Lowerable g id)
  kept : ∀ id, g.has id = true → g'.has id = true → named id = id ∧ g'.op id = g.op id ∧ g'.props id = g.props id
  replaced : ∀ id, Lowerable g id → g.has (named id) = false ∧ g'.op (named id) = loweredOp (g.op id) ∧
    g'.props (named id) = carriedProps g id
  computes : ∀ id, g.has id = true → ∃ t, g.Unfolds id t ∧ g'.Unfolds (named id) (coreTerm t)
  operands : ∀ id, g.has id = true → g'.has id = true → List.Forall₂ (fun e e' => e'.role = e.role ∧
    ∃ t, g.Unfolds e.source t ∧ g'.Unfolds e'.source (lowerTerm t)) (g.operands id) (g'.operands id)
  control : ∀ a b, g.has a = true → g.has b = true → (g'.LeadsTo (named a) (named b) ↔ g.LeadsTo a b)

theorem Replaces.keepsMeaning {g s : Graph} {named : NodeId → NodeId} {done : List NodeId} (hg : g.Consistent)
    (hacyclic : g.ValuesAcyclic) (h : Replaces g s named done) (hdone : ∀ id, id ∈ done ↔ Lowerable g id) :
    KeepsMeaning g s named := by
  have hsurvives : ∀ id, g.has id = true → (s.has id = true ↔ id ∉ done) := by
    intro id hid
    constructor
    · intro hlive hmem
      rw [(h.replaced id hmem).1] at hlive
      cases hlive
    · intro hnot
      rw [← (h.kept id hid hnot).1]
      exact h.has id hid
  exact {
    has := h.has
    injective := h.injective
    survives := by
      intro id hid
      rw [hsurvives id hid, hdone]
    kept := fun id hid hlive => h.kept id hid ((hsurvives id hid).1 hlive)
    replaced := by
      intro id hid
      obtain ⟨-, hfresh, hop, hprops⟩ := h.replaced id ((hdone id).2 hid)
      refine ⟨?_, hop, hprops⟩
      rw [← Bool.not_eq_true]
      exact fun hold => absurd (lt_size_of_has hold) (Int.not_lt.2 hfresh)
    computes := by
      intro id hid
      obtain ⟨t, ht⟩ := hg.exists_denotes hacyclic hid
      exact ⟨t, ht.unfolds, (denotes_coreTerm hdone h ht).unfolds⟩
    operands := by
      intro id hid hlive
      have hnot := (hsurvives id hid).1 hlive
      have hoperands := h.refed id hid
      rw [(h.kept id hid hnot).1] at hoperands
      refine forall₂_imp_of_mem hoperands fun e he e' ⟨hrole, hread⟩ => ⟨hrole, ?_⟩
      obtain ⟨t, ht⟩ := hg.exists_denotes hacyclic (hg.has_of_mem_operands he).1
      refine ⟨t, ht.unfolds, ?_⟩
      cases hread with
      | untagged hmem _ _ _ => exact absurd hmem hnot
      | plain _ hsupplied => exact (denotes_of_supplied hdone ht (denotes_coreTerm hdone h ht) hsupplied).unfolds
    control := h.leadsTo
  }

/-- Lowering preserves meaning.  A run on a consistent graph whose values never lead back
    lowers every addition and test in the terms of the graph and leaves none, so that a
    second run has nothing to change. -/
theorem run_keepsMeaning {g : Graph} (hg : g.Consistent) (hacyclic : g.ValuesAcyclic) {r : Change}
    (h : run g = .ok r) :
    (∃ named, KeepsMeaning g r.graph named) ∧ (∀ id, ¬ Lowerable r.graph id) ∧
      ∃ again, run r.graph = .ok again ∧ again.graph = r.graph ∧ again.modified = false := by
  obtain ⟨named, done, hreplaces, hdone⟩ := replaces_of_run hg h
  have hnone := not_lowerable_of_run hg h
  exact ⟨⟨named, hreplaces.keepsMeaning hg hacyclic hdone⟩, hnone, _, run_of_not_lowerable hnone, rfl, rfl⟩

/-- Of two additions one feeds the other twice, a test looks at the second, and control
    runs through the first. -/
def sums : Graph :=
  (Graph.assemble [.start, .arg, .arg, .fixnumAdd, .fixnumAdd, .kindIs, .finish]
    [⟨0, 3, .control⟩, ⟨1, 3, .valueN 0⟩, ⟨2, 3, .valueN 1⟩, ⟨3, 4, .value⟩, ⟨3, 4, .value⟩, ⟨4, 5, .value⟩,
      ⟨3, 6, .control⟩, ⟨4, 6, .valueN 0⟩, ⟨5, 6, .condition⟩]).setProp 5 Props.kind (.str fixnum)

theorem run_sums_keepsMeaning :
    sums.Consistent ∧ sums.ValuesAcyclic ∧ ∃ r, run sums = .ok r ∧ (∃ named, KeepsMeaning sums r.graph named) ∧
      (∀ id, ¬ Lowerable r.graph id) ∧
        ∃ again, run r.graph = .ok again ∧ again.graph = r.graph ∧ again.modified = false := by
  have hconsistent : sums.Consistent :=
    Consistent.setProp (consistent_assemble (by decide)) _ _ _
  have hacyclic : sums.ValuesAcyclic := valuesAcyclic_of_lt (by decide +kernel)
  have hcount : (run sums).map Change.count = .ok 3 := by decide +kernel
  obtain ⟨r, hrun, -⟩ := map_eq_ok.1 hcount
  exact ⟨hconsistent, hacyclic, r, hrun, run_keepsMeaning hconsistent hacyclic hrun⟩

end SeaOfNodes.Pass.Tagging
