import StateExplorer.Search.Visitor

/-!
# Running a machine

A machine moves step by step until it is over, until a step calls for an abort, or until a poll says
to stop. `Machine.run` polls before every step and `Machine.runEagerly` after every step but the
last. All searches are driven by these two loops.
-/

namespace StateExplorer

/-- Something that moves step by step through states of type `τ`. -/
structure Machine (m : Type → Type) (τ : Type) where
  /-- Takes a step. There is no signal if the machine was over before. -/
  step : τ → m (Option Signal × τ)
  /-- Whether no step is left. -/
  isOver : τ → Bool
  /-- Notes down that a poll stopped the machine. -/
  noteCancelled : τ → m Unit

namespace Machine

variable {m : Type → Type} {τ : Type} [Monad m] [MonadExceptOf Fault m]

/-- Takes steps, polling before each of them. -/
def run (machine : Machine m τ) (poll : m Bool) : Nat → τ → m (Outcome × τ)
  | 0, _ => throw Fault.stepLimit
  | fuel + 1, t => do
    if ← poll then
      machine.noteCancelled t
      return (.cancelled, t)
    match ← machine.step t with
    | (none, t) => return (.exhausted, t)
    | (some .abort, t) => return (.aborted, t)
    | (some .proceed, t) => run machine poll fuel t

/-- Takes steps, polling after each of them unless it was the last. -/
def runEagerly (machine : Machine m τ) (poll : m Bool) : Nat → τ → m (Outcome × τ)
  | 0, _ => throw Fault.stepLimit
  | fuel + 1, t => do
    match ← machine.step t with
    | (none, t) => return (.exhausted, t)
    | (some .abort, t) => return (.aborted, t)
    | (some .proceed, t) =>
      if machine.isOver t then
        return (.exhausted, t)
      if ← poll then
        machine.noteCancelled t
        return (.cancelled, t)
      runEagerly machine poll fuel t

end Machine

end StateExplorer
