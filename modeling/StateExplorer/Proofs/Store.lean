import Std.Data.HashSet.Lemmas
import StateExplorer.Check.Nested.Colored

/-!
# Stores that remember

What a search knows is what its store knew at first, together with the canonical forms that the
search has learnt since. This holds of a store that is `Faithful`. Sets are, the memory for a graph
that admits cycles or sharing is, and so is the store of an inner search that shares its colours:
there a form is known unless it is blue, and learning it turns it red.
-/

namespace StateExplorer

namespace Store

variable {κ K : Type} [Store κ K]

/-- The store after it has learnt a list of forms. -/
def learnAll (store : κ) (keys : List K) : κ :=
  keys.foldl (fun store key => (learn store key).2) store

@[simp] theorem learnAll_nil (store : κ) : learnAll store ([] : List K) = store := rfl

@[simp] theorem learnAll_cons (store : κ) (key : K) (keys : List K) :
    learnAll store (key :: keys) = learnAll (learn store key).2 keys := rfl

@[simp] theorem learnAll_concat (store : κ) (keys : List K) (key : K) :
    learnAll store (keys ++ [key]) = (learn (learnAll store keys) key).2 := by
  simp [learnAll]

/-- The store remembers what it learns, and nothing else becomes known with it. -/
def Faithful (store : κ) : Prop :=
  ∀ (keys : List K) (key : K),
    knows (learnAll store keys) key = true ↔ knows store key = true ∨ key ∈ keys

/-- The store knows nothing but what it knew at first and what it has learnt. It may forget. -/
def Honest (store : κ) : Prop :=
  ∀ (keys : List K) (key : K),
    knows (learnAll store keys) key = true → knows store key = true ∨ key ∈ keys

theorem Faithful.honest {store : κ} (h : Faithful store) : Honest store :=
  fun keys key hknows => (h keys key).1 hknows

/-- The store never knows anything, whatever it learns. -/
def Forgetful (K : Type) [Store κ K] (store : κ) : Prop :=
  ∀ (keys : List K) (key : K), knows (learnAll store keys) key = false

theorem Forgetful.honest {store : κ} (h : Forgetful K store) : Honest (K := K) store := by
  intro keys key hknows
  rw [h] at hknows
  cases hknows

/-- A store remembers if learning a single form adds that form. The property `good` is one that
stores have and keep. -/
theorem faithful_of_learn (good : κ → Prop)
    (keep : ∀ store key, good store → good (learn store key).2)
    (add : ∀ store key other, good store →
      (knows (learn store key).2 other = true ↔ knows store other = true ∨ other = key))
    {store : κ} (h : good store) : Faithful store := by
  intro keys
  induction keys generalizing store with
  | nil => simp
  | cons key keys ih =>
    intro other
    rw [learnAll_cons, ih (keep store key h), add store key other h, List.mem_cons, or_assoc]

/-- The store has learnt nothing yet, remembers what it learns, and counts it. -/
structure Remembers (store : κ) : Prop where
  faithful : Faithful store
  blank : ∀ key, knows store key = false
  size_learnAll : ∀ keys : List K, keys.Nodup → size (learnAll store keys) = keys.length

/-- A store remembers and counts if learning a form that is new adds this form and one to the
count. -/
theorem remembers_of_learn (good : κ → Prop)
    (keep : ∀ store key, good store → good (learn store key).2)
    (add : ∀ store key other, good store →
      (knows (learn store key).2 other = true ↔ knows store other = true ∨ other = key))
    (count : ∀ store key, good store → knows store key = false →
      size (learn store key).2 = size store + 1)
    {store : κ} (h : good store) (blank : ∀ key, knows store key = false) (hsize : size store = 0) :
    Remembers store := by
  have hcount : ∀ (keys : List K) (store : κ), good store → keys.Nodup →
      (∀ key ∈ keys, knows store key = false) →
      size (learnAll store keys) = size store + keys.length := by
    intro keys
    induction keys with
    | nil => exact fun _ _ _ _ => rfl
    | cons key keys ih =>
      intro store hgood nodup new
      obtain ⟨hnot, hkeys⟩ := List.nodup_cons.1 nodup
      have hnew : ∀ other ∈ keys, knows (learn store key).2 other = false := by
        intro other hother
        rw [Bool.eq_false_iff, ne_eq, add store key other hgood]
        rintro (hknown | rfl)
        · rw [new other (List.mem_cons_of_mem key hother)] at hknown
          cases hknown
        · exact hnot hother
      rw [learnAll_cons, ih _ (keep store key hgood) hkeys hnew,
        count store key hgood (new key List.mem_cons_self), List.length_cons]
      omega
  refine ⟨faithful_of_learn good keep add h, blank, fun keys nodup => ?_⟩
  rw [hcount keys store h nodup fun key _ => blank key, hsize, Nat.zero_add]

end Store

open Store

variable {K : Type} [BEq K] [LawfulBEq K] [Hashable K] [LawfulHashable K]

theorem HashSet.knows_learn (keys : Std.HashSet K) (key other : K) :
    knows (learn keys key).2 other = true ↔ knows keys other = true ∨ other = key := by
  show (keys.containsThenInsert key).2.contains other = true ↔ keys.contains other = true ∨ _
  rw [Std.HashSet.containsThenInsert_snd, Std.HashSet.contains_insert, Bool.or_eq_true,
    beq_iff_eq, or_comm, eq_comm (a := key)]

/-- A set remembers. -/
theorem HashSet.faithful (keys : Std.HashSet K) : Faithful keys :=
  faithful_of_learn (fun _ => True) (fun _ _ _ => trivial)
    (fun keys key other _ => HashSet.knows_learn keys key other) trivial

omit [LawfulBEq K] [LawfulHashable K] in
@[simp] theorem HashSet.knows_empty (key : K) : knows (∅ : Std.HashSet K) key = false :=
  Std.HashSet.contains_empty

theorem HashSet.size_learn {keys : Std.HashSet K} {key : K} (new : knows keys key = false) :
    size (learn keys key).2 = size keys + 1 := by
  have hnew : key ∉ keys := Std.HashSet.contains_eq_false_iff_not_mem.1 new
  show (keys.containsThenInsert key).2.size = keys.size + 1
  rw [Std.HashSet.containsThenInsert_snd, Std.HashSet.size_insert, if_neg hnew]

theorem HashSet.remembers : Remembers (∅ : Std.HashSet K) :=
  remembers_of_learn (fun _ => True) (fun _ _ _ => trivial)
    (fun keys key other _ => HashSet.knows_learn keys key other)
    (fun _ _ _ new => HashSet.size_learn new) trivial HashSet.knows_empty Std.HashSet.size_empty

namespace Memory

/-- The memory keeps the forms themselves. -/
def Keeps : Memory K → Prop
  | .remember _ => True
  | .forget _ => False

omit [LawfulBEq K] [LawfulHashable K] in
theorem Keeps.learn (memory : Memory K) (key : K) (h : memory.Keeps) :
    (learn memory key).2.Keeps := by
  cases memory with
  | remember keys => trivial
  | forget tally => exact h.elim

theorem Keeps.knows_learn (memory : Memory K) (key other : K) (h : memory.Keeps) :
    knows (Store.learn memory key).2 other = true ↔ knows memory other = true ∨ other = key := by
  cases memory with
  | remember keys => exact HashSet.knows_learn keys key other
  | forget tally => exact h.elim

theorem faithful {memory : Memory K} (h : memory.Keeps) : Faithful memory :=
  faithful_of_learn Keeps Keeps.learn Keeps.knows_learn h

theorem remembers_fresh : Remembers (Memory.fresh : Memory K) := by
  refine remembers_of_learn Keeps Keeps.learn Keeps.knows_learn ?_ trivial HashSet.knows_empty
    Std.HashSet.size_empty
  intro memory key h new
  cases memory with
  | remember keys => exact HashSet.size_learn new
  | forget tally => exact h.elim

variable {V : Type} {m : Type → Type} {graph : StateGraph m V}

omit [LawfulBEq K] [LawfulHashable K] in
@[simp] theorem knows_forGraph (key : K) :
    knows (Memory.forGraph graph : Memory K) key = false := by
  unfold Memory.forGraph
  split
  · exact HashSet.knows_empty key
  · rfl

/-- The memory for a graph that admits cycles or sharing remembers. -/
theorem faithful_forGraph (h : graph.hasCycles = true ∨ graph.hasSharing = true) :
    Faithful (Memory.forGraph graph : Memory K) := by
  apply faithful
  unfold Memory.forGraph
  rw [if_pos (by simpa using h)]
  trivial

omit [LawfulBEq K] [LawfulHashable K] in
/-- The memory for a graph that says that it has neither cycles nor sharing does not remember. -/
theorem forgetful_forGraph (h : ¬ (graph.hasCycles = true ∨ graph.hasSharing = true)) :
    Forgetful K (Memory.forGraph graph : Memory K) := by
  have hforget : (Memory.forGraph graph : Memory K) = .forget {} := by
    unfold Memory.forGraph
    rw [if_neg (by simpa using h)]
  have hknows : ∀ (keys : List K) (tally : Tally K) (key : K),
      knows (learnAll (Memory.forget tally) keys) key = false := by
    intro keys
    induction keys with
    | nil => exact fun _ _ => rfl
    | cons first keys ih => exact fun tally key => ih _ key
  rw [hforget]
  exact fun keys key => hknows keys {} key

/-- The memory for a graph is honest, whether it remembers or not. -/
theorem honest_forGraph : Honest (Memory.forGraph graph : Memory K) := by
  by_cases h : graph.hasCycles = true ∨ graph.hasSharing = true
  · exact (faithful_forGraph h).honest
  · exact (forgetful_forGraph h).honest

end Memory

/-! ## Colours as a store -/

namespace NestedSearch

namespace Palette

variable (palette : Palette K) (key other : K)

theorem color?_enter_self (weight : Nat) :
    (palette.enter key weight).color? key = some .cyan := by
  simp [color?, enter]

theorem color?_enter_of_ne (weight : Nat) {key other : K} (h : other ≠ key) :
    (palette.enter key weight).color? other = palette.color? other := by
  simp [color?, enter, Std.HashMap.getElem?_insert, h.symm]

theorem weight_enter_self (weight : Nat) : (palette.enter key weight).weight key = weight := by
  simp [Palette.weight, enter]

theorem weight_enter_of_ne (weight : Nat) {key other : K} (h : other ≠ key) :
    (palette.enter key weight).weight other = palette.weight other := by
  simp [Palette.weight, enter, Std.HashMap.getElem?_insert, h.symm]

/-- Painting gives a form the colour, unless it is red. -/
theorem color?_paint_self (color : Color) :
    (palette.paint key color).color? key =
      if palette.color? key = some .red then some .red else some color := by
  unfold color? paint
  cases hk : palette.colors[key]? with
  | none => simp
  | some entry =>
    obtain ⟨old, weight⟩ := entry
    cases old <;> simp [hk]

theorem color?_paint_of_ne (color : Color) {key other : K} (h : other ≠ key) :
    (palette.paint key color).color? other = palette.color? other := by
  unfold color? paint
  cases palette.colors[key]? with
  | none => simp [Std.HashMap.getElem?_insert, h.symm]
  | some entry =>
    obtain ⟨old, weight⟩ := entry
    cases old <;> simp [Std.HashMap.getElem?_insert, h.symm]

/-- Painting keeps all weights. -/
theorem weight_paint (color : Color) :
    (palette.paint key color).weight other = palette.weight other := by
  unfold Palette.weight paint
  cases hk : palette.colors[key]? with
  | none =>
    by_cases h : other = key
    · subst h
      simp [hk]
    · simp [Std.HashMap.getElem?_insert, Ne.symm h]
  | some entry =>
    obtain ⟨old, weight⟩ := entry
    by_cases h : other = key
    · subst h
      cases old <;> simp [hk]
    · cases old <;> simp [Std.HashMap.getElem?_insert, Ne.symm h]

end Palette

namespace RedStore

/-- What an inner search has learnt is red, and all else has kept its colour. -/
theorem color?_learnAll (store : RedStore K) (keys : List K) (key : K) :
    (learnAll store keys).palette.color? key =
      if key ∈ keys then some .red else store.palette.color? key := by
  induction keys generalizing store with
  | nil => simp
  | cons first keys ih =>
    rw [learnAll_cons, ih]
    show (if key ∈ keys then some Color.red else (store.palette.paint first .red).color? key) = _
    by_cases hkeys : key ∈ keys
    · simp [hkeys]
    · by_cases hfirst : key = first
      · subst hfirst
        simp [hkeys, Palette.color?_paint_self]
      · simp [hkeys, hfirst, Palette.color?_paint_of_ne]

/-- Inner searches keep all weights. -/
theorem weight_learnAll (store : RedStore K) (keys : List K) (key : K) :
    (learnAll store keys).palette.weight key = store.palette.weight key := by
  induction keys generalizing store with
  | nil => rfl
  | cons first keys ih =>
    rw [learnAll_cons, ih]
    exact Palette.weight_paint _ _ _ _

omit [LawfulBEq K] [LawfulHashable K] in
theorem knows_iff (store : RedStore K) (key : K) :
    knows store key = true ↔ store.palette.color? key ≠ some .blue := by
  show (store.palette.color? key != some .blue) = true ↔ _
  simp

/-- The store of an inner search remembers. -/
theorem faithful (store : RedStore K) : Faithful store := by
  intro keys key
  rw [knows_iff, knows_iff, color?_learnAll]
  by_cases h : key ∈ keys <;> simp [h]

end RedStore

end NestedSearch

end StateExplorer
