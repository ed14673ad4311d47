import StateExplorer.Proofs.Probing.Table
import StateExplorer.Proofs.Store

/-!
# Operations on a set with linear probing

The operations keep a set `WellFormed`. Its counters are those of its table, at most three quarters
of the slots are in use, and each element is chained to the slot that its hash names. So a search
always finds an empty slot, and it finds an element if there is one. The list of the elements
changes up to its order by the element that was inserted or removed.
-/

namespace StateExplorer

namespace ProbingSet

open Slot

variable {K : Type} {s : ProbingSet K} {key : K}

/-- What every operation of the set keeps. -/
structure WellFormed (s : ProbingSet K) : Prop where
  capacity : ∃ e, s.slots.size = 2 ^ e
  minCapacity_le : minCapacity ≤ s.slots.size
  size_eq : s.size = s.toList.length
  deleted_eq : s.deleted = s.slots.countP isDeleted
  load : (s.size + s.deleted) * 4 ≤ s.slots.size * 3
  nodup : s.toList.Nodup
  chained : Chained s.hash s.slots

/-- One more slot can be used before the table has to be rebuilt. -/
def HasSpace (s : ProbingSet K) : Prop := (s.size + s.deleted + 1) * 4 ≤ s.slots.size * 3

/-- A table of empty slots. -/
theorem wellFormed_blank (hash : K → UInt64) {capacity : Nat} (power : ∃ e, capacity = 2 ^ e)
    (hmin : minCapacity ≤ capacity) :
    WellFormed { hash, slots := Array.replicate capacity .empty, size := 0, deleted := 0 } := by
  have hkeys : keys (Array.replicate capacity (.empty : Slot K)) = [] := by
    simp [keys, List.filterMap_eq_nil_iff, key?]
  constructor
  · simpa using power
  · simpa using hmin
  · exact (congrArg List.length hkeys).symm
  · simp [Array.countP_replicate, isDeleted]
  · simp
  · exact (congrArg List.Nodup hkeys).mpr List.nodup_nil
  · intro e k he
    have hmem := mem_keys.2 ⟨e, he⟩
    rw [hkeys] at hmem
    cases hmem

theorem wellFormed_empty (hash : K → UInt64) : (empty hash).WellFormed :=
  wellFormed_blank hash ⟨3, rfl⟩ (Nat.le_refl minCapacity)

@[simp] theorem toList_empty (hash : K → UInt64) : (empty hash).toList = [] := rfl

theorem WellFormed.vacancy (h : s.WellFormed) :
    ∃ e < s.slots.size, s.slots.getD e .empty = .empty := by
  have hcount := size_eq_countP s.slots
  have hkeys : s.size = (keys s.slots).length := h.size_eq
  have hdeleted := h.deleted_eq
  have hload := h.load
  have hmin : 8 ≤ s.slots.size := h.minCapacity_le
  have hpos : 0 < s.slots.countP isEmpty := by omega
  obtain ⟨slot, hmem, hslot⟩ := Array.countP_pos_iff.1 hpos
  obtain ⟨e, he, rfl⟩ := Array.mem_iff_getElem.1 hmem
  refine ⟨e, he, ?_⟩
  rw [getD_of_lt he]
  cases hread : s.slots[e] with
  | empty => rfl
  | _ => simp [hread, isEmpty] at hslot

variable [BEq K] [LawfulBEq K]

/-! ## Searching -/

/-- The two ways in which a search ends. -/
theorem WellFormed.locate_cases (h : s.WellFormed) (key : K) :
    (key ∈ s.toList ∧ ∃ e < s.slots.size, s.slots.getD e .empty = .occupied key ∧
        s.locate key = .found e) ∨
      (key ∉ s.toList ∧ ∃ e < s.slots.size, (s.slots.getD e .empty).key? = none ∧
        s.locate key = .vacant e ∧ Leads s.hash s.slots key e) := by
  obtain ⟨n, hn, before, hend⟩ := locateIn_lands h.capacity s.hash key h.vacancy
  have hpos : 0 < s.slots.size := Nat.zero_lt_of_lt hn
  rcases hend with ⟨hslot, hfound⟩ | ⟨hslot, j, hj, hvacant, -, hdel⟩
  · exact Or.inl ⟨mem_keys.2 ⟨_, hslot⟩, _, Nat.mod_lt _ hpos, hslot, hfound⟩
  · refine Or.inr ⟨h.chained.not_mem_keys before hslot, _, Nat.mod_lt _ hpos, ?_,
      hvacant, j, rfl, ?_⟩
    · rcases Nat.eq_or_lt_of_le hj with rfl | hlt
      · exact congrArg key? hslot
      · exact congrArg key? (hdel hlt)
    · intro i hi hempty
      refine before i (by omega) ?_
      rw [hempty]
      trivial

theorem WellFormed.contains_iff (h : s.WellFormed) (key : K) :
    s.contains key = true ↔ key ∈ s.toList := by
  rw [contains]
  rcases h.locate_cases key with ⟨hmem, e, -, -, hfound⟩ | ⟨hmem, e, -, -, hvacant, -⟩
  · simp [hfound, hmem]
  · simp [hvacant, hmem]

/-! ## Placing an element -/

theorem WellFormed.place_of_mem (h : s.WellFormed) (hkey : key ∈ s.toList) :
    s.place key = (false, s) := by
  rcases h.locate_cases key with ⟨-, e, -, -, hfound⟩ | ⟨hmem, -⟩
  · rw [place, hfound]
  · exact absurd hkey hmem

theorem WellFormed.place_of_not_mem (h : s.WellFormed) (space : s.HasSpace)
    (hkey : key ∉ s.toList) :
    (s.place key).1 = true ∧ (s.place key).2.WellFormed ∧
      (s.place key).2.toList.Perm (key :: s.toList) ∧
      (s.place key).2.slots.size = s.slots.size ∧ (s.place key).2.deleted ≤ s.deleted := by
  rcases h.locate_cases key with ⟨hmem, -⟩ | ⟨-, e, he, hnone, hvacant, hleads⟩
  · exact absurd hmem hkey
  have hplace : s.place key = (true, { s with
      slots := s.slots.setIfInBounds e (.occupied key)
      size := s.size + 1
      deleted := if (s.slots.getD e .empty).isDeleted then s.deleted - 1 else s.deleted }) := by
    rw [place, hvacant]
    rfl
  have hperm : (keys (s.slots.setIfInBounds e (.occupied key))).Perm (key :: s.toList) := by
    have hwrite := keys_write he (.occupied key)
    rw [hnone, Option.toList_none, List.append_nil] at hwrite
    exact hwrite.trans List.perm_append_comm
  have hcount := countP_write he isDeleted (.occupied key)
  rw [← h.deleted_eq] at hcount
  rw [hplace]
  generalize (s.slots.getD e .empty).isDeleted = tombstone at hcount ⊢
  have hdeleted : (if tombstone then s.deleted - 1 else s.deleted) =
      (s.slots.setIfInBounds e (.occupied key)).countP isDeleted ∧
      (if tombstone then s.deleted - 1 else s.deleted) ≤ s.deleted := by
    cases tombstone <;> simp [isDeleted] at hcount ⊢ <;> omega
  refine ⟨rfl, ?_, hperm, Array.size_setIfInBounds, hdeleted.2⟩
  constructor
  · simpa using h.capacity
  · simpa using h.minCapacity_le
  · exact (congrArg (· + 1) h.size_eq).trans hperm.length_eq.symm
  · exact hdeleted.1
  · simp only [HasSpace] at space
    simp only [Array.size_setIfInBounds]
    omega
  · exact hperm.nodup_iff.2 (List.nodup_cons.2 ⟨hkey, h.nodup⟩)
  · refine h.chained.write he (by simp) ?_
    intro k hk
    cases hk
    exact hleads

/-! ## Rebuilding the table -/

/-- Elements are entered one by one where there is space for all of them. -/
theorem WellFormed.foldl_place (h : s.WellFormed) (items : List K)
    (space : (s.size + s.deleted + items.length) * 4 ≤ s.slots.size * 3)
    (new : (items ++ s.toList).Nodup) :
    (items.foldl (fun t key => (t.place key).2) s).WellFormed ∧
      (items.foldl (fun t key => (t.place key).2) s).toList.Perm (items ++ s.toList) ∧
      (items.foldl (fun t key => (t.place key).2) s).slots.size = s.slots.size ∧
      (items.foldl (fun t key => (t.place key).2) s).deleted ≤ s.deleted := by
  induction items generalizing s with
  | nil => exact ⟨h, List.Perm.refl _, rfl, Nat.le_refl _⟩
  | cons key items ih =>
    rw [List.cons_append, List.nodup_cons] at new
    have hkey : key ∉ s.toList := fun hk => new.1 (List.mem_append_right items hk)
    rw [List.length_cons] at space
    have hspace : s.HasSpace := by
      rw [HasSpace]
      omega
    obtain ⟨-, hwell, hperm, hsize, hdel⟩ := h.place_of_not_mem hspace hkey
    have hmiddle : (items ++ (s.place key).2.toList).Perm (key :: (items ++ s.toList)) :=
      (hperm.append_left items).trans List.perm_middle
    have hlength : (s.place key).2.size = s.size + 1 := by
      rw [hwell.size_eq, hperm.length_eq, List.length_cons, h.size_eq]
    obtain ⟨hwell', hperm', hsize', hdel'⟩ := ih hwell (by omega)
      (hmiddle.nodup_iff.2 (List.nodup_cons.2 new))
    exact ⟨hwell', hperm'.trans hmiddle, hsize'.trans hsize, hdel'.trans hdel⟩

omit [BEq K] [LawfulBEq K] in
/-- The table that a rebuild begins with has space for one element more than there are. -/
theorem WellFormed.rebuiltCapacity (h : s.WellFormed) :
    (∃ e, s.rebuiltCapacity = 2 ^ e) ∧ (s.size + 1) * 4 ≤ s.rebuiltCapacity * 3 := by
  have hmin : 8 ≤ s.slots.size := h.minCapacity_le
  have hload := h.load
  have hcapacity : s.rebuiltCapacity =
      if (s.size + 1) * 2 > s.slots.size then s.slots.size * 2 else s.slots.size := by
    rw [ProbingSet.rebuiltCapacity, minCapacity]
    split <;> omega
  obtain ⟨e, he⟩ := h.capacity
  rw [hcapacity]
  split
  · exact ⟨⟨e + 1, by rw [he, Nat.pow_succ]⟩, by omega⟩
  · exact ⟨⟨e, he⟩, by omega⟩

theorem WellFormed.rebuild (h : s.WellFormed) :
    s.rebuild.WellFormed ∧ s.rebuild.toList.Perm s.toList ∧ s.rebuild.HasSpace ∧
      s.rebuild.slots.size = s.rebuiltCapacity ∧ s.rebuild.deleted = 0 := by
  obtain ⟨hpower, hspace⟩ := h.rebuiltCapacity
  have hblank := wellFormed_blank s.hash hpower (Nat.le_max_left _ _)
  have hnone := List.eq_nil_of_length_eq_zero hblank.size_eq.symm
  have hsize := h.size_eq
  obtain ⟨hwell, hperm, hslots, hdel⟩ := hblank.foldl_place s.toList
    (by simp only [Array.size_replicate]; omega) (by rw [hnone, List.append_nil]; exact h.nodup)
  rw [hnone, List.append_nil] at hperm
  have hdel : s.rebuild.deleted = 0 := Nat.le_zero.1 hdel
  have hslots : s.rebuild.slots.size = s.rebuiltCapacity := hslots.trans Array.size_replicate
  have hkept : s.rebuild.size = s.size := by
    rw [hsize, ← hperm.length_eq]
    exact hwell.size_eq
  refine ⟨hwell, hperm, ?_, hslots, hdel⟩
  rw [HasSpace, hdel, hkept, hslots]
  exact hspace

/-! ## Insertion and removal -/

/-- The set whose table the next element goes into. -/
def prepared (s : ProbingSet K) : ProbingSet K := if s.isCrowded then s.rebuild else s

theorem WellFormed.prepared (h : s.WellFormed) :
    s.prepared.WellFormed ∧ s.prepared.toList.Perm s.toList ∧ s.prepared.HasSpace := by
  rw [ProbingSet.prepared, isCrowded]
  split
  · exact ⟨h.rebuild.1, h.rebuild.2.1, h.rebuild.2.2.1⟩
  · next hcrowded =>
    rw [decide_eq_true_eq] at hcrowded
    exact ⟨h, List.Perm.refl _, Nat.le_of_not_lt hcrowded⟩

theorem WellFormed.insert_of_mem (h : s.WellFormed) (hkey : key ∈ s.toList) :
    (s.insert key).1 = false ∧ (s.insert key).2.WellFormed ∧
      (s.insert key).2.toList.Perm s.toList := by
  obtain ⟨hwell, hperm, -⟩ := h.prepared
  have hinsert : s.insert key = (false, s.prepared) := hwell.place_of_mem (hperm.mem_iff.2 hkey)
  rw [hinsert]
  exact ⟨rfl, hwell, hperm⟩

theorem WellFormed.insert_of_not_mem (h : s.WellFormed) (hkey : key ∉ s.toList) :
    (s.insert key).1 = true ∧ (s.insert key).2.WellFormed ∧
      (s.insert key).2.toList.Perm (key :: s.toList) := by
  obtain ⟨hwell, hperm, space⟩ := h.prepared
  obtain ⟨htrue, hwell', hperm', -⟩ :=
    hwell.place_of_not_mem space fun hk => hkey (hperm.mem_iff.1 hk)
  exact ⟨htrue, hwell', hperm'.trans (hperm.cons key)⟩

theorem WellFormed.erase_of_mem (h : s.WellFormed) (hkey : key ∈ s.toList) :
    (s.erase key).1 = true ∧ (s.erase key).2.WellFormed ∧
      s.toList.Perm (key :: (s.erase key).2.toList) := by
  rcases h.locate_cases key with ⟨-, e, he, hread, hfound⟩ | ⟨hmem, -⟩
  · have herase : s.erase key = (true, { s with
        slots := s.slots.setIfInBounds e .deleted
        size := s.size - 1
        deleted := s.deleted + 1 }) := by
      rw [erase, hfound]
    have hperm : s.toList.Perm (key :: keys (s.slots.setIfInBounds e .deleted)) := by
      have hwrite := keys_write he .deleted
      rw [hread] at hwrite
      simp only [key?, Option.toList_none, Option.toList_some, List.append_nil] at hwrite
      exact hwrite.symm.trans List.perm_append_comm
    have hcount := countP_write he isDeleted .deleted
    rw [hread, ← h.deleted_eq] at hcount
    have hlength := hperm.length_eq
    rw [List.length_cons, ← h.size_eq] at hlength
    have hload := h.load
    rw [herase]
    refine ⟨rfl, ?_, hperm⟩
    constructor
    · simpa using h.capacity
    · simpa using h.minCapacity_le
    · exact Nat.sub_eq_of_eq_add hlength
    · exact hcount.symm
    · simp only [Array.size_setIfInBounds]
      omega
    · exact (List.nodup_cons.1 (hperm.nodup_iff.1 h.nodup)).2
    · exact h.chained.write he (by simp) (by simp)
  · exact absurd hkey hmem

theorem WellFormed.erase_of_not_mem (h : s.WellFormed) (hkey : key ∉ s.toList) :
    s.erase key = (false, s) := by
  rcases h.locate_cases key with ⟨hmem, -⟩ | ⟨-, e, -, -, hvacant, -⟩
  · exact absurd hmem hkey
  · rw [erase, hvacant]

/-- What insertion answers, and which elements there are after it. -/
theorem WellFormed.insert (h : s.WellFormed) (key : K) :
    ((s.insert key).1 = true ↔ key ∉ s.toList) ∧ (s.insert key).2.WellFormed ∧
      ∀ k, k ∈ (s.insert key).2.toList ↔ k = key ∨ k ∈ s.toList := by
  by_cases hkey : key ∈ s.toList
  · obtain ⟨hflag, hwell, hperm⟩ := h.insert_of_mem hkey
    refine ⟨by simp [hflag, hkey], hwell, fun k => ?_⟩
    rw [hperm.mem_iff]
    exact ⟨Or.inr, fun hk => hk.elim (fun heq => heq ▸ hkey) id⟩
  · obtain ⟨hflag, hwell, hperm⟩ := h.insert_of_not_mem hkey
    refine ⟨by simp [hflag, hkey], hwell, fun k => ?_⟩
    rw [hperm.mem_iff, List.mem_cons]

/-- What removal answers, and which elements there are after it. -/
theorem WellFormed.erase (h : s.WellFormed) (key : K) :
    ((s.erase key).1 = true ↔ key ∈ s.toList) ∧ (s.erase key).2.WellFormed ∧
      ∀ k, k ∈ (s.erase key).2.toList ↔ k ≠ key ∧ k ∈ s.toList := by
  by_cases hkey : key ∈ s.toList
  · obtain ⟨hflag, hwell, hperm⟩ := h.erase_of_mem hkey
    have hgone := (List.nodup_cons.1 (hperm.nodup_iff.1 h.nodup)).1
    refine ⟨by simp [hflag, hkey], hwell, fun k => ?_⟩
    rw [hperm.mem_iff, List.mem_cons]
    constructor
    · intro hk
      exact ⟨fun heq => hgone (heq ▸ hk), Or.inr hk⟩
    · intro hk
      exact hk.2.resolve_left hk.1
  · rw [h.erase_of_not_mem hkey]
    exact ⟨by simp [hkey], h, fun k => ⟨fun hk => ⟨fun heq => hkey (heq ▸ hk), hk⟩, And.right⟩⟩

/-! ## The set as a store -/

/-- A set with linear probing remembers, whatever its hash is. -/
theorem remembers_empty (hash : K → UInt64) : Store.Remembers (empty hash) := by
  refine Store.remembers_of_learn WellFormed (fun s key h => (h.insert key).2.1) ?_ ?_
    (wellFormed_empty hash) ?_ rfl
  · intro s key other h
    obtain ⟨-, hwell, hmem⟩ := h.insert key
    exact (hwell.contains_iff other).trans <| (hmem other).trans <| Or.comm.trans <|
      or_congr_left (h.contains_iff other).symm
  · intro s key h new
    have hkey : key ∉ s.toList := fun hmem => by
      have hcontains : s.contains key = true := (h.contains_iff key).2 hmem
      exact Bool.false_ne_true (new.symm.trans hcontains)
    obtain ⟨-, hwell, hperm⟩ := h.insert_of_not_mem hkey
    have hsize : (s.insert key).2.size = s.size + 1 := by
      rw [hwell.size_eq, hperm.length_eq, List.length_cons, h.size_eq]
    exact hsize
  · intro key
    rw [Bool.eq_false_iff]
    exact fun hknows => List.not_mem_nil (((wellFormed_empty hash).contains_iff key).1 hknows)

end ProbingSet

end StateExplorer
