/-
  SeaOfNodes.Outcome

  The result of a step that may stop halfway: the state it reached in either
  case, beside its answer or the reason it has none.
-/

namespace SeaOfNodes

/-- A state reached, and an answer or the reason there is none. -/
structure Outcome (σ ε α : Type) where
  state : σ
  result : Except ε α

namespace Outcome

variable {σ ε α β : Type}

/-- Stop with an answer. -/
def done (state : σ) (answer : α) : Outcome σ ε α := ⟨state, .ok answer⟩

/-- Stop without one. -/
def failed (state : σ) (cause : ε) : Outcome σ ε α := ⟨state, .error cause⟩

/-- Change the answer and keep the state. -/
def map (f : α → β) (o : Outcome σ ε α) : Outcome σ ε β := ⟨o.state, o.result.map f⟩

/-- Continue from the state reached, unless the step stopped. -/
def andThen (o : Outcome σ ε α) (next : σ → α → Outcome σ ε β) : Outcome σ ε β :=
  match o.result with
  | .ok answer => next o.state answer
  | .error cause => ⟨o.state, .error cause⟩

/-- Keep the state of a step whose answer or failure is known already. -/
def ofExcept (state : σ) (result : Except ε α) : Outcome σ ε α := ⟨state, result⟩

@[simp] theorem andThen_done (state : σ) (answer : α) (next : σ → α → Outcome σ ε β) :
    (done state answer).andThen next = next state answer := rfl

@[simp] theorem andThen_failed (state : σ) (cause : ε) (next : σ → α → Outcome σ ε β) :
    (failed state cause).andThen next = failed state cause := rfl

theorem eq_done {o : Outcome σ ε α} {answer : α} (h : o.result = .ok answer) :
    o = .done o.state answer := by rw [done, ← h]

theorem map_eq_ok {f : α → β} {o : Outcome σ ε α} {state : σ} {answer : β} (h : o.map f = ⟨state, .ok answer⟩) :
    ∃ a, o = ⟨state, .ok a⟩ ∧ f a = answer := by
  obtain ⟨reached, _ | a⟩ := o
  · cases h
  · cases h
    exact ⟨a, rfl, rfl⟩

@[simp] theorem state_map (f : α → β) (o : Outcome σ ε α) : (o.map f).state = o.state := rfl

end Outcome

end SeaOfNodes
