import Mathlib.Algebra.Order.Group.Multiset
import Mathlib.Order.WellFounded
import Mathlib.Tactic.Abel
import StateExplorer.Store.Probing

/-!
# Searches in a table with linear probing

A search ends at the first slot that is empty or holds the element (`locateIn_lands`). It meets the
element wherever that stands, as long as no slot between the one that the hash names and the element
is empty (`Chained`). A write keeps this property unless it empties a slot, and it exchanges one key
of the table for another.
-/

namespace StateExplorer

namespace Slot

variable {K : Type}

/-- Whether the slot has not been used since the table was built. -/
def isEmpty : Slot K → Bool
  | empty => true
  | _ => false

/-- Whether the slot holds a tombstone. -/
def isDeleted : Slot K → Bool
  | deleted => true
  | _ => false

/-- Whether the slot holds an element. -/
def isOccupied (slot : Slot K) : Bool := slot.key?.isSome

/-- Whether the search for `key` ends at the slot. -/
def Stops (key : K) : Slot K → Prop
  | empty => True
  | deleted => False
  | occupied existing => existing = key

theorem Stops.eq {key : K} {slot : Slot K} (h : slot.Stops key) :
    slot = .empty ∨ slot = .occupied key := by
  cases slot with
  | empty => exact Or.inl rfl
  | deleted => exact h.elim
  | occupied existing => exact Or.inr (congrArg occupied h)

end Slot

namespace ProbingSet

open Slot

variable {K : Type} {slots : Array (Slot K)} {hash : K → UInt64} {key k : K} {start position : Nat}

theorem getD_of_lt {e : Nat} (he : e < slots.size) : slots.getD e .empty = slots[e] := by
  simp [he]

/-! ## The elements of a table -/

/-- The elements in the slots of a table. -/
def keys (slots : Array (Slot K)) : List K := slots.toList.filterMap key?

theorem mem_keys : k ∈ keys slots ↔ ∃ e, slots.getD e .empty = .occupied k := by
  rw [keys, List.mem_filterMap]
  constructor
  · rintro ⟨slot, hslot, hkey⟩
    obtain ⟨e, he, rfl⟩ := Array.mem_iff_getElem.1 (Array.mem_toList_iff.1 hslot)
    refine ⟨e, ?_⟩
    rw [getD_of_lt he]
    cases hread : slots[e] with
    | occupied existing => simpa [hread, key?] using hkey
    | _ => simp [hread, key?] at hkey
  · rintro ⟨e, he⟩
    by_cases hlt : e < slots.size
    · rw [getD_of_lt hlt] at he
      exact ⟨slots[e], by simp, by rw [he, key?]⟩
    · rw [Array.getD_eq_getD_getElem?, Array.getElem?_eq_none (by omega)] at he
      cases he

@[simp] theorem filterMap_key?_cons (slot : Slot K) (rest : List (Slot K)) :
    (slot :: rest).filterMap key? = slot.key?.toList ++ rest.filterMap key? := by
  cases slot <;> rfl

theorem length_keys (slots : Array (Slot K)) : (keys slots).length = slots.countP isOccupied := by
  rw [keys, List.length_filterMap_eq_countP, ← Array.countP_toList]
  rfl

theorem size_eq_countP (slots : Array (Slot K)) :
    slots.size = (keys slots).length + slots.countP isDeleted + slots.countP isEmpty := by
  rw [keys, ← Array.countP_toList, ← Array.countP_toList, ← Array.length_toList]
  induction slots.toList with
  | nil => rfl
  | cons slot rest ih =>
    rw [filterMap_key?_cons, List.length_append, List.countP_cons,
      List.countP_cons, List.length_cons]
    cases slot <;> simp [key?, isDeleted, isEmpty] <;> omega

/-! ## Writing into a slot -/

theorem getD_write (hp : position < slots.size) (slot : Slot K) (e : Nat) :
    (slots.setIfInBounds position slot).getD e .empty =
      if e = position then slot else slots.getD e .empty := by
  rw [Array.getD_eq_getD_getElem?, Array.getD_eq_getD_getElem?, Array.getElem?_setIfInBounds]
  by_cases h : position = e
  · subst h
    simp [hp]
  · simp [h, Ne.symm h]

theorem exists_split (hp : position < slots.size) :
    ∃ front rear, slots.toList = front ++ slots.getD position .empty :: rear ∧
      ∀ slot, (slots.setIfInBounds position slot).toList = front ++ slot :: rear := by
  have hp' : position < slots.toList.length := hp
  refine ⟨slots.toList.take position, slots.toList.drop (position + 1), ?_, ?_⟩
  · have hread : slots.getD position .empty = slots.toList[position] := getD_of_lt hp
    rw [hread, List.getElem_cons_drop, List.take_append_drop]
  · intro slot
    rw [Array.toList_setIfInBounds, List.set_eq_take_append_cons_drop, if_pos hp']

/-- A write exchanges the element of the slot. -/
theorem keys_write (hp : position < slots.size) (slot : Slot K) :
    (keys (slots.setIfInBounds position slot) ++ (slots.getD position .empty).key?.toList).Perm
      (keys slots ++ slot.key?.toList) := by
  obtain ⟨front, rear, hold, hnew⟩ := exists_split hp
  rw [keys, keys, hnew, hold]
  simp only [List.filterMap_append, filterMap_key?_cons, ← Multiset.coe_eq_coe, ← Multiset.coe_add]
  abel

theorem countP_write (hp : position < slots.size) (p : Slot K → Bool) (slot : Slot K) :
    (slots.setIfInBounds position slot).countP p +
      (if p (slots.getD position .empty) then 1 else 0) =
      slots.countP p + (if p slot then 1 else 0) := by
  obtain ⟨front, rear, hold, hnew⟩ := exists_split hp
  rw [← Array.countP_toList, ← Array.countP_toList, hnew, hold]
  simp only [List.countP_append, List.countP_cons]
  omega

/-! ## Chains of used slots -/

/-- The slot at which a search that began at `start` looks after `n` others. -/
def slotAt (slots : Array (Slot K)) (start n : Nat) : Slot K :=
  slots.getD ((start + n) % slots.size) .empty

/-- The position is reached from the slot that the hash of `key` names without an empty slot on the
way. -/
def Leads (hash : K → UInt64) (slots : Array (Slot K)) (key : K) (position : Nat) : Prop :=
  ∃ n, ((hash key).toNat + n) % slots.size = position ∧
    ∀ i < n, slotAt slots (hash key).toNat i ≠ .empty

/-- Each element is reached from the slot that its hash names without an empty slot on the way. -/
def Chained (hash : K → UInt64) (slots : Array (Slot K)) : Prop :=
  ∀ ⦃e k⦄, slots.getD e .empty = .occupied k → Leads hash slots k e

/-- A write keeps the chains unless it empties a slot. An element that it writes needs a chain that
leads to it. -/
theorem Chained.write {slot : Slot K} (chained : Chained hash slots) (hp : position < slots.size)
    (used : slot ≠ .empty) (leads : ∀ k, slot = .occupied k → Leads hash slots k position) :
    Chained hash (slots.setIfInBounds position slot) := by
  have hused : ∀ start i, slotAt slots start i ≠ .empty →
      slotAt (slots.setIfInBounds position slot) start i ≠ .empty := by
    intro start i hi
    rw [slotAt, getD_write hp, Array.size_setIfInBounds]
    split
    · exact used
    · exact hi
  intro e k he
  have hold : Leads hash slots k e := by
    rw [getD_write hp] at he
    split at he
    · next h => exact h ▸ leads k he
    · exact chained he
  obtain ⟨n, hn, hfull⟩ := hold
  rw [Leads, Array.size_setIfInBounds]
  exact ⟨n, hn, fun i hi => hused _ i (hfull i hi)⟩

theorem Chained.not_mem_keys {n : Nat} (chained : Chained hash slots)
    (before : ∀ i < n, ¬ (slotAt slots (hash k).toNat i).Stops k)
    (hempty : slotAt slots (hash k).toNat n = .empty) : k ∉ keys slots := by
  intro hk
  obtain ⟨e, he⟩ := mem_keys.1 hk
  obtain ⟨m, rfl, hfull⟩ := chained he
  rcases Nat.lt_trichotomy m n with hlt | rfl | hlt
  · refine before m hlt ?_
    rw [slotAt, he]
    exact rfl
  · rw [slotAt, he] at hempty
    cases hempty
  · exact hfull n hlt hempty

/-! ## Where a search ends -/

/-- The positions go round a table whose size is a power of two. -/
theorem wrap_eq_mod (power : ∃ e, slots.size = 2 ^ e) (n : Nat) :
    wrap slots n = n % slots.size := by
  obtain ⟨e, he⟩ := power
  rw [wrap, he, Nat.and_two_pow_sub_one_eq_mod]

theorem exists_offset (start : Nat) {e : Nat} (he : e < slots.size) :
    ∃ n < slots.size, (start + n) % slots.size = e := by
  have hpos : 0 < slots.size := Nat.zero_lt_of_lt he
  have hstart : start % slots.size < slots.size := Nat.mod_lt _ hpos
  refine ⟨(e + (slots.size - start % slots.size)) % slots.size, Nat.mod_lt _ hpos, ?_⟩
  rw [Nat.add_mod_mod, ← Nat.mod_add_mod]
  have hsum : start % slots.size + (e + (slots.size - start % slots.size)) = e + slots.size := by
    omega
  rw [hsum, Nat.add_mod_right, Nat.mod_eq_of_lt he]

/-- The search for `key` that begins at `start` ends after `n` slots, at one that holds the element
or at an empty one. In the second case the element belongs into the first tombstone on the way, and
into the empty slot if there is none. -/
def Lands (slots : Array (Slot K)) (key : K) (start n : Nat) (location : Location) : Prop :=
  (∀ i < n, ¬ (slotAt slots start i).Stops key) ∧
    ((slotAt slots start n = .occupied key ∧ location = .found ((start + n) % slots.size)) ∨
      (slotAt slots start n = .empty ∧ ∃ j ≤ n, location = .vacant ((start + j) % slots.size) ∧
        (∀ i < j, slotAt slots start i ≠ .deleted) ∧ (j < n → slotAt slots start j = .deleted)))

variable [BEq K] [LawfulBEq K]

/-- A search that has come to slot `i` and has noted a tombstone, or none, so far. -/
theorem probe_of_stop (power : ∃ e, slots.size = 2 ^ e) {n : Nat}
    (stop : (slotAt slots start n).Stops key) (count i : Nat) (tombstone : Option Nat) (hle : i ≤ n)
    (hlt : n < i + count) (before : ∀ l, i ≤ l → l < n → ¬ (slotAt slots start l).Stops key) :
    (slotAt slots start n = .occupied key ∧
        probe slots key count ((start + i) % slots.size) tombstone =
          .found ((start + n) % slots.size)) ∨
      (slotAt slots start n = .empty ∧ ∃ position,
        probe slots key count ((start + i) % slots.size) tombstone = .vacant position ∧
        (tombstone = some position ∨ tombstone = none ∧ ∃ j, i ≤ j ∧ j ≤ n ∧
          position = (start + j) % slots.size ∧
            (∀ l, i ≤ l → l < j → slotAt slots start l ≠ .deleted) ∧
          (j < n → slotAt slots start j = .deleted))) := by
  induction count generalizing i tombstone with
  | zero => omega
  | succ count ih =>
    have hnext : wrap slots ((start + i) % slots.size + 1) = (start + (i + 1)) % slots.size := by
      rw [wrap_eq_mod power, Nat.mod_add_mod, Nat.add_assoc]
    have hread : slots.getD ((start + i) % slots.size) .empty = slotAt slots start i := rfl
    rw [probe]
    simp only [hnext, hread]
    rcases Nat.eq_or_lt_of_le hle with rfl | hlt'
    · -- the search ends here
      rcases stop.eq with hslot | hslot
      · refine Or.inr ⟨hslot, tombstone.getD ((start + i) % slots.size), by rw [hslot], ?_⟩
        cases tombstone with
        | some position => exact Or.inl rfl
        | none => exact Or.inr ⟨rfl, i, by omega, by omega, rfl, fun l _ _ => by omega, by omega⟩
      · exact Or.inl ⟨hslot, by simp [hslot]⟩
    · have hgo := before i (Nat.le_refl i) hlt'
      have ih := fun tombstone => ih (i + 1) tombstone hlt' (by omega)
        fun l hl hl' => before l (by omega) hl'
      cases hslot : slotAt slots start i with
      | empty =>
        rw [hslot] at hgo
        exact absurd trivial hgo
      | deleted =>
        -- the first tombstone is noted here, unless there was one before
        refine (ih (tombstone <|> some ((start + i) % slots.size))).imp id ?_
        rintro ⟨hempty, position, hprobe, hposition⟩
        refine ⟨hempty, position, hprobe, ?_⟩
        cases tombstone with
        | some first => exact Or.inl (hposition.resolve_right fun h => by simp at h)
        | none =>
          have hhere : (start + i) % slots.size = position := by simpa using hposition
          exact Or.inr ⟨rfl, i, by omega, hle, hhere.symm, fun l _ _ => by omega, fun _ => hslot⟩
      | occupied existing =>
        rw [hslot] at hgo
        have hne : ¬ (existing == key) = true := fun h => hgo (eq_of_beq h)
        simp only [hne]
        refine (ih tombstone).imp id ?_
        rintro ⟨hempty, position, hprobe, hposition⟩
        refine ⟨hempty, position, hprobe, hposition.imp id ?_⟩
        rintro ⟨hnone, j, hj, hjn, hpos, hnot, hdel⟩
        refine ⟨hnone, j, by omega, hjn, hpos, ?_, hdel⟩
        intro l hl hl'
        rcases Nat.eq_or_lt_of_le hl with rfl | hl
        · rw [hslot]
          exact nofun
        · exact hnot l hl hl'

/-- In a table with an empty slot every search ends before it has gone round. -/
theorem locateIn_lands (power : ∃ e, slots.size = 2 ^ e) (hash : K → UInt64) (key : K)
    (vacancy : ∃ e < slots.size, slots.getD e .empty = .empty) :
    ∃ n < slots.size, Lands slots key (hash key).toNat n (locateIn hash slots key) := by
  obtain ⟨e, he, hempty⟩ := vacancy
  obtain ⟨m, hm, hoffset⟩ := exists_offset (hash key).toNat he
  have hstop : (slotAt slots (hash key).toNat m).Stops key := by
    rw [slotAt, hoffset, hempty]
    trivial
  -- the search ends at the first of the slots at which it can
  obtain ⟨n, hn, hfirst⟩ := WellFounded.has_min Nat.lt_wfRel.wf
    {n | (slotAt slots (hash key).toNat n).Stops key} ⟨m, hstop⟩
  have hnm : n ≤ m := Nat.le_of_not_lt (hfirst m hstop)
  refine ⟨n, by omega, fun i hi hi' => hfirst i hi' hi, ?_⟩
  rw [locateIn, wrap_eq_mod power]
  have hprobe := probe_of_stop power hn slots.size 0 none (Nat.zero_le n) (by omega)
    fun l _ hl hl' => hfirst l hl' hl
  refine hprobe.imp id ?_
  rintro ⟨hend, position, hprobe, hposition⟩
  obtain ⟨-, j, -, hj, rfl, hnot, hdel⟩ := hposition.resolve_left nofun
  exact ⟨hend, j, hj, hprobe, fun l hl => hnot l (Nat.zero_le l) hl, hdel⟩

end ProbingSet

end StateExplorer
