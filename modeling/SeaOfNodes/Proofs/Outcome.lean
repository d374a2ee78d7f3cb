/-
  SeaOfNodes.Proofs.Outcome

  What holds when a step ends, whether it has an answer or not: one condition on the
  state and the answer, and one on the state and the cause.  A loop whose steps keep an
  invariant keeps it to its end, wherever that is.
-/
import SeaOfNodes.Outcome

namespace SeaOfNodes.Outcome

variable {σ ε α β : Type} {o : Outcome σ ε α} {P : σ → α → Prop} {Q : σ → ε → Prop}

/-- A step ends with an answer as `P` says, or for a cause as `Q` says. -/
def Ends (o : Outcome σ ε α) (P : σ → α → Prop) (Q : σ → ε → Prop) : Prop :=
  match o with
  | ⟨state, .ok answer⟩ => P state answer
  | ⟨state, .error cause⟩ => Q state cause

namespace Ends

theorem of_eq_ok (h : o.Ends P Q) {state : σ} {answer : α} (ho : o = ⟨state, .ok answer⟩) : P state answer := by
  subst ho
  exact h

theorem of_eq_error (h : o.Ends P Q) {state : σ} {cause : ε} (ho : o = ⟨state, .error cause⟩) : Q state cause := by
  subst ho
  exact h

/-- What holds in either case holds. -/
theorem state {R : σ → Prop} (h : o.Ends (fun s _ => R s) (fun s _ => R s)) : R o.state := by
  obtain ⟨s, _ | _⟩ := o
  · exact h
  · exact h

theorem mono {P' : σ → α → Prop} {Q' : σ → ε → Prop} (h : o.Ends P Q) (hP : ∀ s a, P s a → P' s a)
    (hQ : ∀ s c, Q s c → Q' s c) : o.Ends P' Q' := by
  obtain ⟨s, cause | a⟩ := o
  · exact hQ s cause h
  · exact hP s a h

theorem imp_done {P' : σ → α → Prop} (h : o.Ends P Q) (hP : ∀ s a, P s a → P' s a) : o.Ends P' Q :=
  h.mono hP fun _ _ => id

theorem imp_failed {Q' : σ → ε → Prop} (h : o.Ends P Q) (hQ : ∀ s c, Q s c → Q' s c) : o.Ends P Q' :=
  h.mono (fun _ _ => id) hQ

theorem map {f : α → β} {P : σ → β → Prop} (h : o.Ends (fun s a => P s (f a)) Q) : (o.map f).Ends P Q := by
  obtain ⟨s, _ | _⟩ := o
  · exact h
  · exact h

theorem andThen {next : σ → α → Outcome σ ε β} {P' : σ → β → Prop} (h : o.Ends P Q)
    (hnext : ∀ s a, P s a → (next s a).Ends P' Q) : (o.andThen next).Ends P' Q := by
  obtain ⟨s, _ | a⟩ := o
  · exact h
  · exact hnext s a h

end Ends

end SeaOfNodes.Outcome
