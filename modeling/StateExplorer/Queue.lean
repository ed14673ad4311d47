/-!
# Queues

A first-in first-out queue made of two lists, one of which holds the newest elements in reverse.
`Queue.toList` is its meaning: the waiting elements, oldest first. Each operation has an equation
that says what it does to this list.
-/

namespace StateExplorer

/-- A first-in first-out queue. -/
structure Queue (α : Type) where
  /-- The oldest elements, oldest first. -/
  front : List α := []
  /-- The newest elements, newest first. -/
  back : List α := []

namespace Queue

variable {α : Type}

/-- The queue without elements. -/
def empty : Queue α := {}

/-- The waiting elements, oldest first. -/
def toList (q : Queue α) : List α := q.front ++ q.back.reverse

/-- Lets an element wait behind all others. -/
def push (q : Queue α) (a : α) : Queue α := { q with back := a :: q.back }

/-- The oldest element and the queue without it. -/
def pop? (q : Queue α) : Option (α × Queue α) :=
  match q.front with
  | a :: front => some (a, { q with front })
  | [] =>
    match q.back.reverse with
    | a :: front => some (a, { front, back := [] })
    | [] => none

/-- The oldest element. -/
def head? (q : Queue α) : Option α := q.pop?.map Prod.fst

/-- How many elements wait. -/
def size (q : Queue α) : Nat := q.front.length + q.back.length

@[simp] theorem toList_empty : (empty : Queue α).toList = [] := rfl

@[simp] theorem toList_push (q : Queue α) (a : α) : (q.push a).toList = q.toList ++ [a] := by
  simp [toList, push]

@[simp] theorem length_toList (q : Queue α) : q.toList.length = q.size := by
  simp [toList, size]

/-- Popping takes the first element of the list of waiting elements. -/
theorem pop?_map_toList (q : Queue α) :
    (q.pop?.map fun p => p.1 :: p.2.toList) = if q.toList = [] then none else some q.toList := by
  obtain ⟨front, back⟩ := q
  cases front with
  | cons a front => simp [pop?, toList]
  | nil =>
    cases h : back.reverse with
    | cons a front => simp [pop?, toList, h]
    | nil => simp [pop?, toList, h]

end Queue

end StateExplorer
