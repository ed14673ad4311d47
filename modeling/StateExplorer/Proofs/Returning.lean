import StateExplorer.Fault

/-!
# What a computation may return

The checks run in any monad in which a `Fault` can be thrown. What they answer is stated once for
all of these monads by `Returns x a`: the computation `x` may return `a`. A statement of the form
"if `x` returns `a` then `a` is right" is proved by taking `x` apart at its binds, whatever else the
monad does: poll a budget, keep a journal, or end with a fault.

A check that polls nothing and whose graph has no effects runs in `Except Fault`, where it returns
at most one value. `Settles` says that it does return if it is allowed enough steps, and `Confirms`
that it does so if and only if what it looks for is there.
-/

namespace StateExplorer

/-- Monads in which one can say what a computation may return. A computation that throws does not
return. -/
class Returning (m : Type → Type) [Monad m] [MonadExceptOf Fault m] where
  /-- Whether a computation may return a value. -/
  Returns : {α : Type} → m α → α → Prop
  /-- A pure computation returns its value. -/
  of_pure : ∀ {α : Type} {a b : α}, Returns (pure a) b → b = a
  /-- What a sequence of two computations returns is returned by the second. -/
  of_bind : ∀ {α β : Type} {x : m α} {f : α → m β} {b : β},
    Returns (x >>= f) b → ∃ a, Returns x a ∧ Returns (f a) b
  /-- A computation that throws returns nothing. -/
  not_throw : ∀ {α : Type} {fault : Fault} {a : α}, ¬ Returns (throw fault) a

export Returning (Returns)

instance : Returning (Except Fault) where
  Returns x a := x = .ok a
  of_pure h := (Except.ok.inj h).symm
  of_bind := by
    intro α β x f b h
    cases x with
    | error fault => cases h
    | ok a => exact ⟨a, rfl, h⟩
  not_throw := by
    intro α fault a h
    cases h

instance {σ : Type} : Returning (StateT σ (Except Fault)) where
  Returns x a := ∃ s s', x.run s = .ok (a, s')
  of_pure := by
    rintro α a b ⟨s, s', h⟩
    cases h
    rfl
  of_bind := by
    rintro α β x f b ⟨s, s', h⟩
    rw [StateT.run_bind] at h
    cases hx : x.run s with
    | error fault => rw [hx] at h; cases h
    | ok p =>
      rw [hx] at h
      exact ⟨p.1, ⟨s, p.2, hx⟩, ⟨p.2, s', h⟩⟩
  not_throw := by
    rintro α fault a ⟨s, s', h⟩
    cases h

theorem returns_stateT {σ α : Type} {x : StateT σ (Except Fault) α} {a : α} :
    Returns x a ↔ ∃ s s', x.run s = .ok (a, s') := Iff.rfl

/-- The poll that never calls for a stop. -/
theorem not_returns_pure_false : ¬ Returns (pure false : Except Fault Bool) true := by
  intro h
  cases Returning.of_pure h

section Steps

variable {m : Type → Type} [Monad m] [MonadExceptOf Fault m] [Returning m] {α β : Type}

/-- A pure first computation hands its value over. -/
theorem Returning.of_pure_bind {a : α} {f : α → m β} {b : β} (h : Returns (pure a >>= f) b) :
    Returns (f a) b := by
  obtain ⟨a', ha, hf⟩ := Returning.of_bind h
  rw [Returning.of_pure ha] at hf
  exact hf

/-- The result of a first computation that is not used does not matter. -/
theorem Returning.of_seq {x : m α} {y : m β} {b : β} (h : Returns (x >>= fun _ => y) b) :
    Returns y b := by
  obtain ⟨_, _, hy⟩ := Returning.of_bind h
  exact hy

end Steps

/-! ## Faults -/

/-- Nothing is done after a fault. -/
class LawfulFault (m : Type → Type) [Monad m] [MonadExceptOf Fault m] : Prop where
  throw_bind : ∀ {α β : Type} (fault : Fault) (f : α → m β), (throw fault >>= f) = throw fault

instance {σ : Type} : LawfulFault (StateT σ (Except Fault)) := ⟨fun _ _ => rfl⟩

instance {σ : Type} : LawfulFault (ExceptT Fault (StateM σ)) := ⟨fun _ _ => rfl⟩

theorem map_throw {m : Type → Type} [Monad m] [LawfulMonad m] [MonadExceptOf Fault m]
    [LawfulFault m] {α β : Type} (fault : Fault) (f : α → β) :
    f <$> (throw fault : m α) = throw fault := by
  rw [← bind_pure_comp]
  exact LawfulFault.throw_bind fault _

/-! ## Enough steps -/

/-- With a large enough allowance of steps, the computation returns `a`. -/
def Settles {α : Type} (x : Nat → Except Fault α) (a : α) : Prop :=
  ∃ least, ∀ fuel, least ≤ fuel → x fuel = .ok a

namespace Settles

variable {α β : Type} {x : Nat → Except Fault α} {a : α}

theorem of_ok (a : α) : Settles (fun _ => .ok a) a := ⟨0, fun _ _ => rfl⟩

theorem bind {f : Nat → α → Except Fault β} {b : β} (hx : Settles x a)
    (hf : Settles (fun fuel => f fuel a) b) : Settles (fun fuel => x fuel >>= f fuel) b := by
  obtain ⟨n, hn⟩ := hx
  obtain ⟨k, hk⟩ := hf
  refine ⟨max n k, fun fuel hfuel => ?_⟩
  have hxa : x fuel = .ok a := hn fuel (Nat.le_trans (Nat.le_max_left n k) hfuel)
  show x fuel >>= f fuel = .ok b
  rw [hxa]
  exact hk fuel (Nat.le_trans (Nat.le_max_right n k) hfuel)

/-- A computation that begins with another one settles if that one does and the rest returns. -/
theorem andThen {y : Nat → Except Fault β} {f : α → Except Fault β} {b : β} (hx : Settles x a)
    (hy : ∀ fuel, y fuel = x fuel >>= f) (hf : f a = .ok b) : Settles y b := by
  obtain ⟨n, hn⟩ := hx
  refine ⟨n, fun fuel hfuel => ?_⟩
  rw [hy fuel, hn fuel hfuel]
  exact hf

/-- What a computation settles on is what it returns for some allowance. -/
theorem returns (hx : Settles x a) : ∃ fuel, Returns (x fuel) a := by
  obtain ⟨n, hn⟩ := hx
  exact ⟨n, hn n (Nat.le_refl n)⟩

end Settles

/-- With a large enough allowance of steps, the computation returns, and always the same. -/
def Converges {α : Type} (x : Nat → Except Fault α) : Prop := ∃ a, Settles x a

namespace Converges

variable {α β : Type} {x : Nat → Except Fault α} {f : Nat → α → Except Fault β}

theorem pure (a : α) : Converges fun _ => (Pure.pure a : Except Fault α) := ⟨a, .of_ok a⟩

theorem bind (hx : Converges x) (hf : ∀ a, Converges fun fuel => f fuel a) :
    Converges fun fuel => x fuel >>= f fuel := by
  obtain ⟨a, ha⟩ := hx
  obtain ⟨b, hb⟩ := hf a
  exact ⟨b, ha.bind hb⟩

theorem pure_bind {a : α} (hf : Converges fun fuel => f fuel a) :
    Converges fun fuel => (Pure.pure a : Except Fault α) >>= f fuel :=
  hf

end Converges

/-- If the computation returns `good` for some allowance of steps then `p` holds, and if `p` holds
then it returns `good` for every large one. -/
structure Confirms {α : Type} (x : Nat → Except Fault α) (good : α) (p : Prop) : Prop where
  sound : ∀ {fuel}, x fuel = .ok good → p
  complete : p → Settles x good

namespace Confirms

variable {α β : Type} {x : Nat → Except Fault α} {good : α} {p q : Prop}

theorem of_ok {a : α} (h : a = good ↔ p) : Confirms (fun _ => .ok a) good p where
  sound hx := h.1 (Except.ok.inj hx)
  complete hp := h.2 hp ▸ .of_ok a

theorem congr (h : Confirms x good p) (hiff : p ↔ q) : Confirms x good q where
  sound hx := hiff.1 (h.sound hx)
  complete hq := h.complete (hiff.2 hq)

/-- Two computations in a row, where the second one cannot make up for a failure of the first. -/
theorem bind {f : Nat → α → Except Fault β} {fine : β} (h : Confirms x good p)
    (rest : Confirms (fun fuel => f fuel good) fine q)
    (fails : ∀ fuel a, a ≠ good → f fuel a ≠ .ok fine) :
    Confirms (fun fuel => x fuel >>= f fuel) fine (p ∧ q) where
  sound := by
    intro fuel hx
    obtain ⟨a, ha, hf⟩ := Returning.of_bind (m := Except Fault) hx
    by_cases hgood : a = good
    · subst hgood
      exact ⟨h.sound ha, rest.sound hf⟩
    · exact absurd hf (fails fuel a hgood)
  complete hpq := (h.complete hpq.1).bind (rest.complete hpq.2)

/-- A test, and one of two results. -/
theorem verdict {x : Nat → Except Fault Bool} {fine bad : β} (h : Confirms x true p)
    (hne : bad ≠ fine) :
    Confirms (fun fuel => x fuel >>= fun b => if b = true then Pure.pure fine else Pure.pure bad)
      fine p := by
  have hfine : Confirms (fun _ => (.ok fine : Except Fault β)) fine True := .of_ok (by simp)
  refine (h.bind hfine ?_).congr (and_iff_left trivial)
  intro fuel b hb heq
  rw [if_neg hb] at heq
  exact hne (Except.ok.inj heq)

end Confirms

end StateExplorer
