import Std.Data.HashSet
import StateExplorer.Graph.Basic

/-!
# Stores of canonical forms

A search remembers the vertices it has discovered by their canonical forms. It does so through a
`Store`, which answers whether a form has been learnt, learns one, and counts.

* `Std.HashSet` remembers every form.
* `Tally` only counts. Every form stays new to it, which is enough for a graph whose vertices are
  each reached in one way.
* `Memory` is one of the two, chosen by what a graph says about itself.
-/

namespace StateExplorer

/-- Stores of canonical forms of type `K`. -/
class Store (κ : Type) (K : outParam Type) where
  /-- Whether the form has been learnt. -/
  knows : κ → K → Bool
  /-- Learns a form. The answer is whether it was new. -/
  learn : κ → K → Bool × κ
  /-- How many forms were new when they were learnt. -/
  size : κ → Nat

variable {K : Type}

instance [BEq K] [Hashable K] : Store (Std.HashSet K) K where
  knows keys key := keys.contains key
  learn keys key :=
    let (present, keys) := keys.containsThenInsert key
    (!present, keys)
  size keys := keys.size

/-- Counts what it learns and remembers none of it. -/
structure Tally (K : Type) where
  /-- How many forms have been learnt. -/
  count : Nat := 0
  deriving DecidableEq, Repr

instance : Store (Tally K) K where
  knows _ _ := false
  learn tally _ := (true, ⟨tally.count + 1⟩)
  size tally := tally.count

/-- Either remembers all forms or only counts them. -/
inductive Memory (K : Type) [BEq K] [Hashable K] where
  /-- All forms learnt so far. -/
  | remember (keys : Std.HashSet K)
  /-- The number of forms learnt so far. -/
  | forget (tally : Tally K)

namespace Memory

variable [BEq K] [Hashable K]

/-- The memory that remembers, before it has learnt anything. -/
def fresh : Memory K := .remember ∅

/-- The memory that suits a graph: nothing has to be remembered if the graph has neither cycles nor
sharing. -/
def forGraph {m : Type → Type} {V : Type} (graph : StateGraph m V) : Memory K :=
  if graph.hasCycles || graph.hasSharing then fresh else .forget {}

/-- The remembered forms, if they are kept. -/
def remembered? : Memory K → Option (Std.HashSet K)
  | remember keys => some keys
  | forget _ => none

instance : Store (Memory K) K where
  knows
    | .remember keys, key => Store.knows keys key
    | .forget tally, key => Store.knows tally key
  learn
    | .remember keys, key => (Store.learn keys key).map id .remember
    | .forget tally, key => (Store.learn tally key).map id .forget
  size
    | .remember keys => Store.size keys
    | .forget tally => Store.size tally

end Memory

end StateExplorer
