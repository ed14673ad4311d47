/-!
# Stacks

A last-in first-out stack that knows its size. `Stack.items` is its meaning: the elements from the
top of the stack to its bottom. The size is part of the stack so that it need not be counted, and
comes with the proof that counting would give the same.
-/

namespace StateExplorer

/-- A last-in first-out stack. -/
structure Stack (α : Type) where
  /-- The elements, from the top to the bottom. -/
  items : List α
  /-- The number of elements. -/
  size : Nat
  /-- The size is the one that counting gives. -/
  size_eq : size = items.length

namespace Stack

variable {α : Type}

/-- The stack without elements. -/
def empty : Stack α := { items := [], size := 0, size_eq := rfl }

/-- Whether there are no elements. -/
def isEmpty (stack : Stack α) : Bool := stack.items.isEmpty

/-- The element on top. -/
def top? (stack : Stack α) : Option α := stack.items.head?

/-- Puts an element on top. -/
def push (stack : Stack α) (a : α) : Stack α where
  items := a :: stack.items
  size := stack.size + 1
  size_eq := by simp [stack.size_eq]

/-- Takes the top element away, if there is one. -/
def pop (stack : Stack α) : Stack α where
  items := stack.items.tail
  size := stack.size - 1
  size_eq := by simp [stack.size_eq]

/-- Changes the top element, if there is one. -/
def modifyTop (f : α → α) (stack : Stack α) : Stack α where
  items := stack.items.modifyHead f
  size := stack.size
  size_eq := by simp [stack.size_eq]

/-- A stack is given by its elements. -/
theorem eq_of_items_eq {s t : Stack α} (h : s.items = t.items) : s = t := by
  obtain ⟨items, size, hs⟩ := s
  obtain ⟨items', size', ht⟩ := t
  subst h
  subst hs
  subst ht
  rfl

@[simp] theorem items_empty : (empty : Stack α).items = [] := rfl

@[simp] theorem items_push (stack : Stack α) (a : α) :
    (stack.push a).items = a :: stack.items := rfl

@[simp] theorem items_pop (stack : Stack α) : stack.pop.items = stack.items.tail := rfl

@[simp] theorem items_modifyTop (f : α → α) (stack : Stack α) :
    (stack.modifyTop f).items = stack.items.modifyHead f := rfl

end Stack

end StateExplorer
