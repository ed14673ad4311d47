import Mathlib.Data.Finset.Max
import Mathlib.Data.List.Infix
import StateExplorer.Proofs.Probing.Refinement

/-!
# How large a table with linear probing gets

A table is rebuilt when elements and tombstones together crowd it, but it only grows if the elements
alone would fill more than half of it (`WellFormed.capacity_serve`). So a larger table than the
smallest one has fewer than four slots for each element that the set has held at once, and one more
(`capacity_bounded_by_peak`). Tombstones never show in this bound, however many elements have come
and gone.
-/

namespace StateExplorer

namespace Request

variable {K : Type}

/-- The element that a request is about. -/
def key? : Request K → Option K
  | insert key => some key
  | erase key => some key
  | contains key => some key
  | size => none
  | toList => none

variable [DecidableEq K] {population elements : Finset K}

/-- Only what a request is about comes into a finite set. -/
theorem update_subset (request : Request K) (known : ∀ key ∈ request.key?, key ∈ population)
    (h : elements ⊆ population) : request.update elements ⊆ population := by
  cases request with
  | insert key => exact Finset.insert_subset (known key rfl) h
  | erase key => exact (Finset.erase_subset key elements).trans h
  | contains key => exact h
  | size => exact h
  | toList => exact h

theorem foldl_update_subset (requests : List (Request K))
    (known : ∀ request ∈ requests, ∀ key ∈ request.key?, key ∈ population)
    (h : elements ⊆ population) : requests.foldl update elements ⊆ population := by
  induction requests generalizing elements with
  | nil => exact h
  | cons request requests ih =>
    refine ih (fun other hother => known other (List.mem_cons_of_mem _ hother)) ?_
    exact update_subset request (known request List.mem_cons_self) h

end Request

namespace ProbingSet

variable {K : Type} [BEq K] {s : ProbingSet K}

/-- How many elements the set holds at first and after each of the requests. -/
def sizes (s : ProbingSet K) (requests : List (Request K)) : Finset Nat :=
  (requests.inits.map fun served => (s.serveAll served).size).toFinset

theorem mem_sizes {requests : List (Request K)} {n : Nat} :
    n ∈ s.sizes requests ↔ ∃ served, served <+: requests ∧ (s.serveAll served).size = n := by
  simp [sizes]

/-- The table is the smallest one, or has fewer than four slots for each of `most` elements and one
more. -/
def Fits (s : ProbingSet K) (most : Nat) : Prop :=
  s.slots.size = 8 ∨ s.slots.size < 4 * (most + 1)

/-! ## One request -/

/-- An element is put into a table that is there. -/
theorem size_slots_place (s : ProbingSet K) (key : K) :
    (s.place key).2.slots.size = s.slots.size := by
  unfold place
  split
  · rfl
  · exact Array.size_setIfInBounds

theorem size_slots_erase (s : ProbingSet K) (key : K) :
    (s.erase key).2.slots.size = s.slots.size := by
  unfold erase
  split
  · exact Array.size_setIfInBounds
  · rfl

omit [BEq K] in
/-- A rebuilt table is as large as before unless the elements would fill more than half of it. -/
theorem rebuiltCapacity_cases (hmin : minCapacity ≤ s.slots.size) :
    s.rebuiltCapacity = s.slots.size ∨ s.rebuiltCapacity < 4 * (s.size + 1) := by
  unfold rebuiltCapacity
  rw [minCapacity] at hmin ⊢
  split
  · omega
  · omega

variable [LawfulBEq K]

theorem WellFormed.capacity_insert (h : s.WellFormed) (key : K) :
    (s.insert key).2.slots.size = s.slots.size ∨
      (s.insert key).2.slots.size < 4 * (s.size + 1) := by
  have hplace : (s.insert key).2.slots.size = s.prepared.slots.size :=
    size_slots_place s.prepared key
  rw [hplace, ProbingSet.prepared]
  split
  · rw [h.rebuild.2.2.2.1]
    exact rebuiltCapacity_cases h.minCapacity_le
  · exact Or.inl rfl

/-- A request leaves the size of the table as it is, or there are enough elements for the new
one. -/
theorem WellFormed.capacity_serve (h : s.WellFormed) (request : Request K) :
    (s.serve request).2.slots.size = s.slots.size ∨
      (s.serve request).2.slots.size < 4 * (s.size + 1) := by
  cases request with
  | insert key => exact h.capacity_insert key
  | erase key => exact Or.inl (size_slots_erase s key)
  | contains key => exact Or.inl rfl
  | size => exact Or.inl rfl
  | toList => exact Or.inl rfl

/-! ## All requests -/

variable [DecidableEq K]

/-- If the set never holds more than `most` elements, the table fits `most` elements. -/
theorem fits_serveAll (hash : K → UInt64) (requests : List (Request K)) {most : Nat}
    (held : ∀ served, served <+: requests → ((empty hash).serveAll served).size ≤ most) :
    ((empty hash).serveAll requests).Fits most := by
  induction requests using List.reverseRecOn with
  | nil => exact Or.inl rfl
  | append_singleton requests request ih =>
    have hbefore : requests <+: requests ++ [request] := List.prefix_append requests [request]
    have hwell := ((represents_empty hash).serveAll requests).wellFormed
    have hlast : (empty hash).serveAll (requests ++ [request]) =
        (((empty hash).serveAll requests).serve request).2 := by
      rw [ProbingSet.serveAll, List.foldl_concat]
      rfl
    rw [Fits, hlast]
    rcases hwell.capacity_serve request with hsame | hgrown
    · rw [hsame]
      exact ih fun served hserved => held served (hserved.trans hbefore)
    · have hheld := held requests hbefore
      exact Or.inr (by omega)

/-- Elements that are not among the population are not held. -/
theorem size_le_card (hash : K → UInt64) (requests : List (Request K)) (population : Finset K)
    (known : ∀ request ∈ requests, ∀ key ∈ request.key?, key ∈ population) :
    ((empty hash).serveAll requests).size ≤ population.card := by
  rw [((represents_empty hash).serveAll requests).size_eq]
  exact Finset.card_le_card
    (Request.foldl_update_subset requests known (Finset.empty_subset population))

/-- Whatever requests a set has served and whatever its hash is, its table has eight slots, or fewer
than four for each of the elements that it held when it held the most, and one more. So there is a
bound on the table that depends on the number of elements that the requests are about, and on
nothing else. -/
theorem capacity_bounded_by_peak (hash : K → UInt64) (requests : List (Request K)) :
    (∃ most, IsGreatest ((empty hash).sizes requests : Set Nat) most ∧
      (((empty hash).serveAll requests).slots.size = 8 ∨
        ((empty hash).serveAll requests).slots.size < 4 * (most + 1))) ∧
    ∀ population : Finset K, (∀ request ∈ requests, ∀ key ∈ request.key?, key ∈ population) →
      ((empty hash).serveAll requests).slots.size = 8 ∨
        ((empty hash).serveAll requests).slots.size < 4 * (population.card + 1) := by
  refine ⟨?_, ?_⟩
  · have hsome : ((empty hash).sizes requests).Nonempty :=
      ⟨_, mem_sizes.2 ⟨requests, List.prefix_refl requests, rfl⟩⟩
    refine ⟨_, Finset.isGreatest_max' _ hsome, fits_serveAll hash requests fun served hserved => ?_⟩
    exact Finset.le_max' _ _ (mem_sizes.2 ⟨served, hserved, rfl⟩)
  · intro population known
    refine fits_serveAll hash requests fun served hserved => ?_
    exact size_le_card hash served population fun request hrequest =>
      known request (hserved.subset hrequest)

/-- Three elements come and go for a hundred rounds, all with the same hash. Each removal leaves a
tombstone behind, and the table stays below sixteen slots. -/
theorem capacity_bounded_by_peak_churn :
    let requests := (List.range 100).flatMap fun round =>
      [Request.insert (round % 3), Request.erase (round % 3)]
    (∀ request ∈ requests, ∀ key ∈ request.key?, key ∈ ({0, 1, 2} : Finset Nat)) ∧
      (((empty fun _ : Nat => 5).serveAll requests).slots.size = 8 ∨
        ((empty fun _ : Nat => 5).serveAll requests).slots.size < 16) := by
  intro requests
  have known : ∀ request ∈ requests, ∀ key ∈ request.key?, key ∈ ({0, 1, 2} : Finset Nat) := by
    intro request hrequest key hkey
    obtain ⟨round, -, hround⟩ := List.mem_flatMap.1 hrequest
    have hnamed : request.key? = some (round % 3) := by
      rcases List.mem_pair.1 hround with rfl | rfl
      · rfl
      · rfl
    obtain rfl : round % 3 = key := Option.some.inj (hnamed.symm.trans hkey)
    have hlt : round % 3 < 3 := Nat.mod_lt round (by decide)
    simp only [Finset.mem_insert, Finset.mem_singleton]
    omega
  exact ⟨known, (capacity_bounded_by_peak (fun _ : Nat => 5) requests).2 {0, 1, 2} known⟩

end ProbingSet

end StateExplorer
