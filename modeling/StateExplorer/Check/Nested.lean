import StateExplorer.Check.Nested.Colored
import StateExplorer.Check.Nested.Postorder
import StateExplorer.Check.Nested.Preorder

/-!
# Nested searches

The ways to check that no accepting vertex lies on a reachable cycle. They differ in when the inner
searches start, in what these share, and so in which cycle they show.
-/

namespace StateExplorer.NestedSearch

/-- A way to look for an accepting cycle. -/
inductive Method where
  /-- Inner searches on entering a vertex. -/
  | preorder
  /-- Inner searches on leaving a vertex. -/
  | postorder
  /-- Inner searches that share their colours, with or without an early look at the path. -/
  | colored (early : Bool)
  deriving DecidableEq, Repr

variable {m : Type → Type} {V K : Type} [BEq K] [Hashable K] [Monad m] [Journal m] [Render V]
  [MonadExceptOf Fault m]

/-- Checks in the given way that no accepting vertex lies on a reachable cycle. -/
def Method.check (method : Method) (fuel : Nat) (poll : m Bool) (space : StateSpace m V K)
    (accepting : V → m Bool) : m (Answer V) :=
  match method with
  | .preorder => NestedSearch.preorder fuel poll space accepting
  | .postorder => NestedSearch.postorder fuel poll space accepting
  | .colored early => NestedSearch.colored fuel poll space accepting early

end StateExplorer.NestedSearch
