import TypedWire.Error

namespace TypedWire

abbrev Action (σ : Type) := EStateM WireError σ

namespace Action

variable {σ β α : Type}

def ofChecked : Checked α → Action σ α
  | .ok x => pure x
  | .error e => throw e

def beside (a : Action σ α) : Action (σ × β) α := fun (s, b) =>
  match a s with
  | .ok x s => .ok x (s, b)
  | .error e s => .error e (s, b)

def outcome (a : Action σ α) (s : σ) : Checked α × σ :=
  match a s with
  | .ok x s => (.ok x, s)
  | .error e s => (.error e, s)

@[simp] theorem outcome_pure (x : α) (s : σ) : outcome (pure x) s = (.ok x, s) := rfl

@[simp] theorem outcome_throw (e : WireError) (s : σ) :
    outcome (throw e : Action σ α) s = (.error e, s) := rfl

@[simp] theorem outcome_ofChecked (r : Checked α) (s : σ) : outcome (ofChecked r) s = (r, s) := by
  cases r <;> rfl

@[simp] theorem outcome_beside (a : Action σ α) (s : σ) (b : β) :
    outcome (beside a) (s, b) = ((a.outcome s).1, (a.outcome s).2, b) := by
  simp only [outcome, beside]
  cases a s <;> rfl

end Action

end TypedWire
