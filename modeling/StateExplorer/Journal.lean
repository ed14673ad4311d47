/-!
# The journal

Searches report what they do as lines of text at two levels. Where the lines go is up to the monad
in which the search runs: `Except` drops them, so a theorem about a search in `Except` speaks of its
result alone. A line is passed as a function, so that a monad which drops it never builds its text.
-/

namespace StateExplorer

/-- How important a line of the journal is. -/
inductive Level where
  /-- A result or an interruption. -/
  | debug
  /-- A single step. -/
  | trace
  deriving DecidableEq, Repr

/-- Monads in which a line can be noted down. -/
class Journal (m : Type → Type) where
  /-- Notes down a line. -/
  note : Level → (Unit → String) → m Unit

namespace Journal

variable {m : Type → Type} [Journal m]

/-- Notes down a result or an interruption. -/
def debug (line : Unit → String) : m Unit := note .debug line

/-- Notes down a single step. -/
def trace (line : Unit → String) : m Unit := note .trace line

end Journal

instance : Journal Id where
  note _ _ := ()

instance {ε : Type} : Journal (Except ε) where
  note _ _ := .ok ()

instance {σ : Type} {m : Type → Type} [Monad m] [Journal m] : Journal (StateT σ m) where
  note level line := StateT.lift (Journal.note level line)

instance {ε : Type} {m : Type → Type} [Monad m] [Journal m] : Journal (ExceptT ε m) where
  note level line := ExceptT.lift (Journal.note level line)

/-- The journal of the monad is not kept. -/
class Journal.Quiet (m : Type → Type) [Monad m] [Journal m] : Prop where
  /-- Noting down a line does nothing. -/
  note_eq : ∀ level line, (Journal.note level line : m Unit) = pure ()

namespace Journal

instance : Quiet Id := ⟨fun _ _ => rfl⟩

instance {ε : Type} : Quiet (Except ε) := ⟨fun _ _ => rfl⟩

instance {σ : Type} {m : Type → Type} [Monad m] [LawfulMonad m] [Journal m] [Quiet m] :
    Quiet (StateT σ m) where
  note_eq level line := by
    show StateT.lift (Journal.note level line) = pure ()
    rw [Quiet.note_eq]
    funext s
    show (pure () >>= fun a => pure (a, s)) = pure ((), s)
    rw [pure_bind]

instance {ε : Type} {m : Type → Type} [Monad m] [LawfulMonad m] [Journal m] [Quiet m] :
    Quiet (ExceptT ε m) where
  note_eq level line := by
    show ExceptT.lift (Journal.note level line) = pure ()
    rw [Quiet.note_eq]
    exact map_pure Except.ok ()

variable {m : Type → Type} [Monad m] [Journal m] [Quiet m]

@[simp] theorem debug_eq (line : Unit → String) : (debug line : m Unit) = pure () :=
  Quiet.note_eq _ _

@[simp] theorem trace_eq (line : Unit → String) : (trace line : m Unit) = pure () :=
  Quiet.note_eq _ _

end Journal

end StateExplorer
