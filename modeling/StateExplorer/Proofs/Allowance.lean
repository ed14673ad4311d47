import StateExplorer.Proofs.Visiting
import StateExplorer.StepBudget

/-!
# Searches with a budget

A machine whose steps do nothing but return a value takes at most as many steps as its budget
allows, and then stops. So its run returns, also where it would never come to its end without the
budget.
-/

namespace StateExplorer

open DepthSearch

section Immediate

variable {m : Type → Type} [Monad m] {α β : Type}

/-- The computation does nothing but return a value. -/
def Immediate (x : m α) : Prop := ∃ a, x = pure a

theorem Immediate.pure (a : α) : Immediate (Pure.pure a : m α) := ⟨a, rfl⟩

theorem Immediate.bind [LawfulMonad m] {x : m α} {f : α → m β} (hx : Immediate x)
    (hf : ∀ a, Immediate (f a)) : Immediate (x >>= f) := by
  obtain ⟨a, rfl⟩ := hx
  rw [pure_bind]
  exact hf a

/-- The visitor answers each call at once. -/
structure Visitor.Immediate {V C σ : Type} (visitor : Visitor m V C σ) : Prop where
  enter : ∀ source target search state,
    StateExplorer.Immediate (visitor.enter source target search state)
  revisit : ∀ source target search state,
    StateExplorer.Immediate (visitor.revisit source target search state)
  leave : ∀ vertex frame search state,
    StateExplorer.Immediate (visitor.leave vertex frame search state)

variable [LawfulMonad m] [Journal m] [Journal.Quiet m] {V K κ σ : Type} [Store κ K] [Render V]
  {graph : StateGraph Id V} {key : V → K} {visitor : Visitor m V (DepthSearch V κ) σ}

omit [LawfulMonad m] in
theorem Immediate.trace (line : Unit → String) : Immediate (Journal.trace line : m Unit) :=
  ⟨(), Journal.trace_eq line⟩

/-- On a graph without effects, a search with such a visitor takes each step at once. -/
theorem DepthSearch.step_immediate (h : visitor.Immediate) (t : Session (DepthSearch V κ) σ) :
    Immediate (step (graph.under key) visitor t) := by
  unfold step
  split
  · exact .pure _
  · split
    · split
      · exact (Immediate.trace _).bind fun _ => (h.leave _ _ _ _).bind fun _ => .pure _
      · exact (Immediate.trace _).bind fun _ => .pure _
    · refine (Immediate.pure _).bind fun key => ?_
      split
      · exact (Immediate.trace _).bind fun _ => (h.revisit _ _ _ _).bind fun _ => .pure _
      · refine (Immediate.trace _).bind fun _ => (h.enter _ _ _ _).bind fun answer => ?_
        obtain ⟨signal, state⟩ := answer
        cases signal with
        | abort => exact .pure _
        | proceed => exact Immediate.bind ⟨_, push_under _ _⟩ fun _ => .pure _

end Immediate

/-- A machine whose steps are immediate returns after at most as many steps as its budget allows. -/
theorem Machine.run_within_budget {τ : Type}
    {machine : Machine (StateT StepBudget (Except Fault)) τ}
    (step : ∀ t, Immediate (machine.step t)) (note : ∀ t, Immediate (machine.noteCancelled t))
    (n : Nat) (t : τ) :
    ∃ result rest, ∀ fuel,
      (machine.run (modifyGet StepBudget.poll) (n + 1 + fuel) t).run ⟨n⟩ = pure (result, rest) := by
  induction n generalizing t with
  | zero =>
    obtain ⟨_, hnote⟩ := note t
    refine ⟨(.cancelled, t), ⟨0⟩, fun fuel => ?_⟩
    rw [Nat.add_right_comm]
    simp [Machine.run, hnote]
  | succ n ih =>
    obtain ⟨⟨signal, t'⟩, hstep⟩ := step t
    simp only [Nat.add_right_comm (n + 1) 1]
    rcases signal with _ | (_ | _)
    · exact ⟨(.exhausted, t'), ⟨n⟩, fun fuel => by simp [Machine.run, hstep]⟩
    · obtain ⟨result, rest, hrest⟩ := ih t'
      exact ⟨result, rest, fun fuel => by simp [Machine.run, hstep, hrest]⟩
    · exact ⟨(.aborted, t'), ⟨n⟩, fun fuel => by simp [Machine.run, hstep]⟩

end StateExplorer
