/-!
# Step budgets

Every search asks, once for each step it takes, whether it should stop. It asks by running an action
that answers with a truth value, and does not care where the answer comes from. A `StepBudget` is
the source that lets a fixed number of questions pass and answers every later one with "stop".
-/

namespace StateExplorer

/-- An allowance of polls. -/
structure StepBudget where
  /-- How many polls pass before the budget calls for a stop. -/
  remaining : Nat
  deriving DecidableEq, Repr

namespace StepBudget

/-- Polls the budget: whether to stop, and what is left of it. -/
def poll (budget : StepBudget) : Bool × StepBudget :=
  match budget.remaining with
  | 0 => (true, budget)
  | n + 1 => (false, ⟨n⟩)

@[simp] theorem poll_zero : poll ⟨0⟩ = (true, ⟨0⟩) := rfl

@[simp] theorem poll_succ (n : Nat) : poll ⟨n + 1⟩ = (false, ⟨n⟩) := rfl

end StepBudget

end StateExplorer
