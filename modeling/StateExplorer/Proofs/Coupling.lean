import Mathlib.Tactic.Choose
import StateExplorer.Proofs.Returning
import StateExplorer.Search.Machine

/-!
# Coupled computations

Two computations are coupled if they are two views of a single one that keeps their results related
(`Coupled`). Then they have the same effects, in whatever monad they run, and what is read off
related results is the same (`Coupled.map_eq`). Coupling goes through binds, and so from the steps
of two machines to their runs (`Machine.Twins.run`, `Machine.Twins.runEagerly`).
-/

namespace StateExplorer

variable {m : Type → Type} [Monad m] {α β γ δ : Type}

/-- All values that the computation returns have the property. -/
def Yields (P : α → Prop) (x : m α) : Prop :=
  ∃ z : m { a // P a }, Subtype.val <$> z = x

/-- The computations are the two views of one that keeps their results related. -/
def Coupled (R : α → β → Prop) (x : m α) (y : m β) : Prop :=
  ∃ z : m { results : α × β // R results.1 results.2 }, (·.1.1) <$> z = x ∧ (·.1.2) <$> z = y

variable [LawfulMonad m]

theorem Yields.pure {P : α → Prop} {a : α} (h : P a) : Yields P (Pure.pure a : m α) :=
  ⟨Pure.pure ⟨a, h⟩, map_pure _ _⟩

theorem Yields.always (x : m α) : Yields (fun _ => True) x :=
  ⟨(⟨·, trivial⟩) <$> x, by simp⟩

namespace Coupled

variable {R : α → β → Prop} {S : γ → δ → Prop} {x : m α} {y : m β}

theorem pure {a : α} {b : β} (h : R a b) : Coupled R (Pure.pure a : m α) (Pure.pure b) :=
  ⟨Pure.pure ⟨(a, b), h⟩, map_pure _ _, map_pure _ _⟩

theorem throw [MonadExceptOf Fault m] [LawfulFault m] (fault : Fault) :
    Coupled R (MonadExcept.throw fault : m α) (MonadExcept.throw fault) :=
  ⟨MonadExcept.throw fault, map_throw _ _, map_throw _ _⟩

theorem bind {f : α → m γ} {g : β → m δ} (h : Coupled R x y)
    (next : ∀ a b, R a b → Coupled S (f a) (g b)) : Coupled S (x >>= f) (y >>= g) := by
  obtain ⟨z, rfl, rfl⟩ := h
  choose rest hf hg using fun p : { p : α × β // R p.1 p.2 } => next p.1.1 p.1.2 p.2
  refine ⟨z >>= rest, ?_, ?_⟩
  · simp only [map_bind, hf, bind_map_left]
  · simp only [map_bind, hg, bind_map_left]

/-- Both go on from one and the same computation. -/
theorem after {P : α → Prop} {f : α → m γ} {g : α → m δ} (h : Yields P x)
    (next : ∀ a, P a → Coupled S (f a) (g a)) : Coupled S (x >>= f) (x >>= g) := by
  obtain ⟨z, rfl⟩ := h
  have same : Coupled (fun a b => a = b ∧ P a) (Subtype.val <$> z) (Subtype.val <$> z) :=
    ⟨(fun a => ⟨(a.1, a.1), rfl, a.2⟩) <$> z, by simp, by simp⟩
  refine same.bind fun a b hab => ?_
  rw [← hab.1]
  exact next a hab.2

/-- What is read off the results in the same way is the same. -/
theorem map_eq {f : α → γ} {g : β → γ} (h : Coupled R x y) (same : ∀ a b, R a b → f a = g b) :
    f <$> x = g <$> y := by
  obtain ⟨z, rfl, rfl⟩ := h
  rw [Functor.map_map, Functor.map_map]
  congr 1
  funext p
  exact same _ _ p.2

theorem eq {R : α → α → Prop} {x y : m α} (h : Coupled R x y) (same : ∀ a b, R a b → a = b) :
    x = y := by
  rw [← id_map x, ← id_map y]
  exact h.map_eq same

end Coupled

/-! ## Machines -/

variable {τ τ' : Type}

/-- Two steps have ended in the same way, and the states are related by `Last`. They are also
related by `Go` if the machines go on from there. -/
def Machine.Matched (Go Last : τ → τ' → Prop) (next : Option Signal × τ)
    (next' : Option Signal × τ') :
    Prop :=
  next.1 = next'.1 ∧ Last next.2 next'.2 ∧ (next.1 = some .proceed → Go next.2 next'.2)

/-- The machines take the same steps and stay related by `Go` as long as they go on, and where they
stop they are related by `Last`. -/
structure Machine.Twins (Go Last : τ → τ' → Prop) (machine : Machine m τ)
    (machine' : Machine m τ') :
    Prop where
  step : ∀ {t t'}, Go t t' → Coupled (Matched Go Last) (machine.step t) (machine'.step t')
  last : ∀ {t t'}, Go t t' → Last t t'
  isOver : ∀ {t t'}, Go t t' → machine.isOver t = machine'.isOver t'
  note : ∀ {t t'}, Go t t' → machine.noteCancelled t = machine'.noteCancelled t'

namespace Machine.Twins

variable [MonadExceptOf Fault m] [LawfulFault m] {Go Last : τ → τ' → Prop} {machine : Machine m τ}
  {machine' : Machine m τ'}

theorem run (twins : machine.Twins Go Last machine') (poll : m Bool) (fuel : Nat) {t : τ} {t' : τ'}
    (h : Go t t') :
    Coupled (fun result result' => result.1 = result'.1 ∧ Last result.2 result'.2)
      (machine.run poll fuel t) (machine'.run poll fuel t') := by
  induction fuel generalizing t t' with
  | zero => exact .throw _
  | succ fuel ih =>
    rw [Machine.run, Machine.run]
    refine Coupled.after (.always poll) fun stop _ => ?_
    cases stop with
    | true =>
      rw [if_pos rfl, if_pos rfl, twins.note h]
      exact Coupled.after (.always _) fun _ _ => .pure ⟨rfl, twins.last h⟩
    | false =>
      rw [if_neg Bool.false_ne_true, if_neg Bool.false_ne_true]
      refine (twins.step h).bind fun next next' related => ?_
      obtain ⟨signal, t⟩ := next
      obtain ⟨signal', t'⟩ := next'
      obtain ⟨rfl, last, go⟩ := related
      rcases signal with _ | _ | _
      · exact .pure ⟨rfl, last⟩
      · exact ih (go rfl)
      · exact .pure ⟨rfl, last⟩

theorem runEagerly (twins : machine.Twins Go Last machine') (poll : m Bool) (fuel : Nat) {t : τ}
    {t' : τ'} (h : Go t t') :
    Coupled (fun result result' => result.1 = result'.1 ∧ Last result.2 result'.2)
      (machine.runEagerly poll fuel t) (machine'.runEagerly poll fuel t') := by
  induction fuel generalizing t t' with
  | zero => exact .throw _
  | succ fuel ih =>
    rw [Machine.runEagerly, Machine.runEagerly]
    refine (twins.step h).bind fun next next' related => ?_
    obtain ⟨signal, t⟩ := next
    obtain ⟨signal', t'⟩ := next'
    obtain ⟨rfl, last, go⟩ := related
    rcases signal with _ | _ | _
    · exact .pure ⟨rfl, last⟩
    · have h := go rfl
      dsimp only at h ⊢
      rw [← twins.isOver h]
      cases machine.isOver t with
      | true => exact .pure ⟨rfl, last⟩
      | false =>
        refine Coupled.after (.always poll) fun stop _ => ?_
        cases stop with
        | true =>
          rw [if_pos rfl, if_pos rfl, twins.note h]
          exact Coupled.after (.always _) fun _ _ => .pure ⟨rfl, last⟩
        | false => exact ih h
    · exact .pure ⟨rfl, last⟩

end Machine.Twins

end StateExplorer
