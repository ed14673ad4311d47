import StateExplorer.Check.Answer
import StateExplorer.Search.Depth

/-!
# Nested searches for accepting cycles

The checks in this folder look for a cycle through an accepting vertex that can be reached from a
root. Each runs an outer depth-first search over the whole graph, and inner searches that look for a
way back to one accepting vertex.

* `NestedSearch.preorder` starts an inner search when the outer search enters an accepting vertex.
* `NestedSearch.postorder` starts it when the outer search leaves one.
* `NestedSearch.colored` starts it when the outer search leaves one, and shares between the inner
  searches what they have seen, so that all of them together look at each vertex at most once.

If an inner search is told to stop, the outer search stops too and no counterexample is reported.
-/

namespace StateExplorer.NestedSearch

/-- What the outer search has found out. -/
structure Findings (V : Type) where
  /-- The counterexample, if there is one. -/
  answer : Answer V := .satisfied
  /-- Whether an inner search was told to stop. -/
  cancelled : Bool := false
  /-- How many inner searches were started. -/
  launched : Nat := 0

/-- The answer of the whole check. -/
def Findings.conclusion {V : Type} (findings : Findings V) : Answer V :=
  if findings.cancelled then .satisfied else findings.answer

end StateExplorer.NestedSearch
