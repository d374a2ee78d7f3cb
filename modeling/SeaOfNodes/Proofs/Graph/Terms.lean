/-
  SeaOfNodes.Proofs.Graph.Terms

  The terms that nodes stand for.  Where value edges never lead back, every node unfolds
  into one finite term, its operation and properties over the terms of its operands,
  whether or not other nodes share them.
-/
import SeaOfNodes.Proofs.Graph.Conversions
import Mathlib.Order.WellFoundedSet

namespace SeaOfNodes

open Relation

/-- An operation with its properties over operands under their roles. -/
inductive Term where
  | node (op : Op) (props : Props) (operands : List (Role × Term))

mutual

/-- What holds of a term if it holds of its operands holds of all terms. -/
theorem Term.induct {P : Term → Prop}
    (node : ∀ op props operands, (∀ x ∈ operands, P x.2) → P (.node op props operands)) : ∀ t, P t
  | .node op props operands => node op props operands (Term.induct_operands node operands)

theorem Term.induct_operands {P : Term → Prop}
    (node : ∀ op props operands, (∀ x ∈ operands, P x.2) → P (.node op props operands)) :
    ∀ operands : List (Role × Term), ∀ x ∈ operands, P x.2
  | [], _, hx => by cases hx
  | (_, t) :: rest, x, hx => by
      rcases List.mem_cons.1 hx with rfl | hx
      · exact Term.induct node t
      · exact Term.induct_operands node rest x hx

end

namespace Graph

mutual

/-- A node stands for a term. -/
def Denotes (g : Graph) : Term → NodeId → Prop
  | .node op props terms, id =>
    g.has id = true ∧ g.op id = op ∧ g.props id = props ∧ DenoteAll g terms (g.operands id)

/-- Edges bring in terms under their roles. -/
def DenoteAll (g : Graph) : List (Role × Term) → List Edge → Prop
  | [], [] => True
  | (role, t) :: terms, e :: edges => (e.role = role ∧ Denotes g t e.source) ∧ DenoteAll g terms edges
  | _, _ => False

end

theorem denoteAll_iff {g : Graph} {terms : List (Role × Term)} {edges : List Edge} :
    g.DenoteAll terms edges ↔ List.Forall₂ (fun x e => e.role = x.1 ∧ g.Denotes x.2 e.source) terms edges := by
  induction terms generalizing edges with
  | nil => cases edges <;> simp [DenoteAll]
  | cons x terms ih =>
      cases edges with
      | nil => simp [DenoteAll]
      | cons e edges => rw [DenoteAll, ih, List.forall₂_cons]

theorem denotes_node {g : Graph} {op : Op} {props : Props} {terms : List (Role × Term)} {id : NodeId} :
    g.Denotes (.node op props terms) id ↔ g.has id = true ∧ g.op id = op ∧ g.props id = props ∧
      List.Forall₂ (fun x e => e.role = x.1 ∧ g.Denotes x.2 e.source) terms (g.operands id) := by
  rw [Denotes, denoteAll_iff]

/-- A node stands for one term. -/
theorem Denotes.unique {g : Graph} {t u : Term} {id : NodeId} (ht : g.Denotes t id) (hu : g.Denotes u id) : t = u := by
  induction t using Term.induct generalizing u id with
  | node op props terms ih =>
      obtain ⟨op', props', terms'⟩ := u
      obtain ⟨-, rfl, rfl, hterms⟩ := denotes_node.1 ht
      obtain ⟨-, rfl, rfl, hterms'⟩ := denotes_node.1 hu
      -- Both list the operands in the same order, so the terms agree place by place.
      have hsame : List.Forall₂ Eq terms terms' := by
        refine forall₂_imp_of_mem (forall₂_comp hterms hterms'.flip) fun x hx y ⟨e, hxe, hye⟩ => ?_
        exact Prod.ext (hxe.1.symm.trans hye.1) (ih x hx hxe.2 hye.2)
      rw [List.forall₂_eq_eq_eq] at hsame
      rw [hsame]

/-- The term of a node. -/
def Unfolds (g : Graph) (id : NodeId) (t : Term) : Prop := ∀ u, g.Denotes u id ↔ u = t

theorem Denotes.unfolds {g : Graph} {t : Term} {id : NodeId} (h : g.Denotes t id) : g.Unfolds id t := by
  intro u
  constructor
  · intro hu
    exact hu.unique h
  · rintro rfl
    exact h

/-- Values never lead back to the node they come from. -/
def ValuesAcyclic (g : Graph) : Prop := ∀ id, ¬ TransGen (fun a b => a ∈ g.valueInputs b) id id

/-- They do not where each node reads nodes with lower handles. -/
theorem valuesAcyclic_of_lt {g : Graph} (h : ∀ b ∈ g.ids, ∀ a ∈ g.valueInputs b, a < b) : g.ValuesAcyclic := by
  have hstep : ∀ a b, a ∈ g.valueInputs b → a < b := by
    intro a b hab
    refine h b (mem_ids.2 ?_) a hab
    obtain ⟨e, he, -⟩ := List.mem_map.1 hab
    exact has_of_mem_inputs (List.mem_of_mem_filter he)
  have hpath : ∀ {a b : NodeId}, TransGen (fun a b => a ∈ g.valueInputs b) a b → a < b := by
    intro a b hab
    induction hab with
    | single hab => exact hstep _ _ hab
    | tail _ hab ih => exact Int.lt_trans ih (hstep _ _ hab)
  exact fun id hcycle => Int.lt_irrefl id (hpath hcycle)

/-- Every node in use stands for a term. -/
theorem Consistent.exists_denotes {g : Graph} (hg : g.Consistent) (hacyclic : g.ValuesAcyclic) {id : NodeId}
    (hid : g.has id = true) : ∃ t, g.Denotes t id := by
  let before : NodeId → NodeId → Prop := TransGen fun a b => a ∈ g.valueInputs b
  have horder : IsStrictOrder NodeId before := { irrefl := hacyclic, trans := fun _ _ _ => TransGen.trans }
  have hfinite : {id | g.has id = true}.Finite := by
    refine g.ids.finite_toSet.subset fun id hid => ?_
    exact mem_ids.2 hid
  have hwf : {id | g.has id = true}.WellFoundedOn before := hfinite.wellFoundedOn
  -- The nodes in use are finitely many, so a term is put together from those of what is read.
  refine hwf.induction (P := fun id => ∃ t, g.Denotes t id) hid fun id hid ih => ?_
  have hall : ∀ edges : List Edge, (∀ e ∈ edges, e ∈ g.operands id) →
      ∃ terms, List.Forall₂ (fun (x : Role × Term) e => e.role = x.1 ∧ g.Denotes x.2 e.source) terms edges := by
    intro edges
    induction edges with
    | nil => exact fun _ => ⟨[], .nil⟩
    | cons e rest hrest =>
        intro hedges
        have he := hedges e List.mem_cons_self
        obtain ⟨t, ht⟩ := ih e.source (hg.has_of_mem_operands he).1 (.single (List.mem_map_of_mem he))
        obtain ⟨terms, hterms⟩ := hrest fun x hx => hedges x (List.mem_cons_of_mem e hx)
        exact ⟨(e.role, t) :: terms, .cons ⟨rfl, ht⟩ hterms⟩
  obtain ⟨terms, hterms⟩ := hall (g.operands id) fun _ he => he
  exact ⟨.node (g.op id) (g.props id) terms, denotes_node.2 ⟨hid, rfl, rfl, hterms⟩⟩

end Graph

end SeaOfNodes
