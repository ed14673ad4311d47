import StateExplorer.Fault

/-!
# Sequences read from the front

The roots of a graph and the neighbours of a vertex are sequences that are read one element at a
time, and that may never end. A sequence is therefore either a list or a rule that gives an element
for every index, together with the index to read next.
-/

namespace StateExplorer

/-- A sequence read from the front. -/
inductive Sequence (α : Type) where
  /-- The elements of a list. -/
  | finite (items : List α)
  /-- The elements `item next`, `item (next + 1)`, and so on without end. -/
  | endless (item : Nat → α) (next : Nat)

namespace Sequence

variable {α β : Type} {m : Type → Type}

/-- The sequence without elements. -/
def empty : Sequence α := .finite []

/-- The element that is read next. -/
def head? : Sequence α → Option α
  | finite items => items.head?
  | endless item next => some (item next)

/-- What is left after one element has been read. -/
def tail : Sequence α → Sequence α
  | finite items => finite items.tail
  | endless item next => endless item (next + 1)

/-- The first `n` elements, or all of them if there are fewer. -/
def take (n : Nat) : Sequence α → List α
  | finite items => items.take n
  | endless item next => (List.range n).map fun i => item (next + i)

/-- What is left after `n` elements have been read. -/
def drop (n : Nat) : Sequence α → Sequence α
  | finite items => finite (items.drop n)
  | endless item next => endless item (next + n)

/-- All elements, if there is an end to them. -/
def toList? : Sequence α → Option (List α)
  | finite items => some items
  | endless _ _ => none

/-- Applies a function to every element. -/
def map (f : α → β) : Sequence α → Sequence β
  | finite items => finite (items.map f)
  | endless item next => endless (fun i => f (item i)) next

/-- The first element that satisfies `p`. The allowance `fuel` limits how many elements of a
sequence without end are looked at; a list needs none. -/
def findM? [Monad m] [MonadExceptOf Fault m] (fuel : Nat) (p : α → m Bool) :
    Sequence α → m (Option α)
  | finite items => items.findM? p
  | endless item next => go item fuel next
where
  /-- Looks at the elements of a rule from the given index on. -/
  go (item : Nat → α) : Nat → Nat → m (Option α)
    | 0, _ => throw Fault.stepLimit
    | fuel + 1, i => do
      if ← p (item i) then return some (item i)
      go item fuel (i + 1)

/-- Whether some element satisfies `p`, looking no further than the first that does. -/
def anyM [Monad m] [MonadExceptOf Fault m] (fuel : Nat) (p : α → m Bool) (s : Sequence α) :
    m Bool := do
  return (← s.findM? fuel p).isSome

@[simp] theorem head?_finite (items : List α) : (finite items).head? = items.head? := rfl

@[simp] theorem tail_finite (items : List α) : (finite items).tail = finite items.tail := rfl

@[simp] theorem head?_endless (item : Nat → α) (next : Nat) :
    (endless item next).head? = some (item next) := rfl

@[simp] theorem tail_endless (item : Nat → α) (next : Nat) :
    (endless item next).tail = endless item (next + 1) := rfl

end Sequence

end StateExplorer
