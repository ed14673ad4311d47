import Mathlib.Data.List.Nodup
import Mathlib.Data.List.TakeWhile
import Mathlib.Logic.Relation

/-!
# Low values

This file is about the decomposition of a graph into strongly connected components, without the
tables in which it is kept. It follows a depth-first search by the canonical forms that it deals
with: `keys` are those discovered so far, in this order, `stack` those on the stack, `done` those of
completed components, and `followers` those that were left and wait for their leader, last one
first. `seen` is the relation of the edges looked at so far.

`Chart` relates the low values to these. Three lemmas say that it is kept when a form is discovered
(`Chart.enter`), when a low value is lowered along an edge (`Chart.reach`), and when a form that
does not lead is left (`Chart.leave_follower`). When a leader is left, it and the followers
discovered after it reach each other (`Chart.members_reach`), and their edges lead to each other or
to what is done (`Chart.members_closed`). The chart is kept once they are done, too
(`Chart.leave_leader`).
-/

namespace StateExplorer.Components

open Relation

variable {K : Type} [BEq K] [LawfulBEq K]

/-! ## Ranks -/

/-- When a form was discovered, counted from one. -/
def rank (keys : List K) (k : K) : Nat := keys.idxOf k + 1

section Rank

variable {keys stack : List K} {k k' : K}

theorem rank_inj (hk : k ∈ keys) (h : rank keys k = rank keys k') : k = k' :=
  (List.idxOf_inj hk).1 (Nat.succ.inj h)

theorem rank_le_length (hk : k ∈ keys) : rank keys k ≤ keys.length :=
  List.idxOf_lt_length_of_mem hk

theorem rank_concat_of_mem (hk : k ∈ keys) : rank (keys ++ [k']) k = rank keys k := by
  unfold rank
  rw [List.idxOf_append_of_mem hk]

theorem rank_concat_self (hk : k ∉ keys) : rank (keys ++ [k]) k = keys.length + 1 := by
  unfold rank
  rw [List.idxOf_append_of_notMem hk, List.idxOf_cons_self, Nat.add_zero]

theorem pairwise_rank (nodup : keys.Nodup) :
    keys.Pairwise fun a b => rank keys a < rank keys b := by
  rw [List.pairwise_iff_getElem]
  intro i j hi hj hij
  unfold rank
  rw [nodup.idxOf_getElem i hi, nodup.idxOf_getElem j hj]
  exact Nat.succ_lt_succ hij

end Rank

/-! ## Charts -/

/-- What the low values say while the search goes on. -/
structure Chart (seen : K → K → Prop) (keys stack : List K) (low : K → Nat)
    (followers done : List K) : Prop where
  nodup : keys.Nodup
  stack_sublist : stack.Sublist keys
  stack_active : ∀ k ∈ stack, k ∉ done
  done_mem : ∀ k ∈ done, k ∈ keys
  followers_iff : ∀ k, k ∈ followers ↔ k ∈ keys ∧ k ∉ done ∧ k ∉ stack
  followers_nodup : followers.Nodup
  /-- Edges lead from discovered forms to discovered forms. -/
  seen_mem : ∀ {a b}, seen a b → a ∈ keys ∧ b ∈ keys
  low_le : ∀ k ∈ keys, low k ≤ rank keys k
  /-- A low value is the rank of an active form that can be reached. -/
  low_reached : ∀ k ∈ keys, k ∉ done →
    ∃ w ∈ keys, w ∉ done ∧ rank keys w = low k ∧ ReflTransGen seen k w
  follower_low : ∀ k ∈ followers, low k < rank keys k
  /-- Followers discovered after a form on the stack come before those discovered earlier. -/
  nested : ∀ p ∈ stack, followers.Pairwise fun a b => rank keys p < rank keys b →
    rank keys p < rank keys a
  /-- The last form on the stack that was discovered before a follower has taken over its low
  value. -/
  covered : ∀ k ∈ followers, ∃ below p above, stack = below ++ p :: above ∧
    rank keys p < rank keys k ∧ (∀ q ∈ above, rank keys k < rank keys q) ∧ low p ≤ low k
  /-- A form on the stack reaches all that was discovered after it. -/
  reaches : ∀ p ∈ stack, ∀ k ∈ keys, rank keys p ≤ rank keys k → ReflTransGen seen p k
  /-- Along an edge the low value of the source has taken the target into account. -/
  low_edge : ∀ {a b}, seen a b → a ∈ done ∨ b ∈ done ∨ low a ≤ rank keys b

namespace Chart

variable {seen seen' : K → K → Prop} {keys stack : List K} {low low' : K → Nat}
  {followers done : List K} {u x q : K}

omit [LawfulBEq K] in
theorem empty (low : K → Nat) : Chart (fun _ _ => False) ([] : List K) [] low [] [] := by
  constructor <;> simp

omit [LawfulBEq K] in
theorem stack_mem (h : Chart seen keys stack low followers done) {k : K} (hk : k ∈ stack) :
    k ∈ keys :=
  h.stack_sublist.subset hk

theorem stack_pairwise (h : Chart seen keys stack low followers done) :
    stack.Pairwise fun a b => rank keys a < rank keys b :=
  (pairwise_rank h.nodup).sublist h.stack_sublist

/-- The last form on the stack was discovered last. -/
theorem rank_le_last (h : Chart seen keys (stack ++ [q]) low followers done) {p : K}
    (hp : p ∈ stack ++ [q]) : rank keys p ≤ rank keys q := by
  have hpairwise := h.stack_pairwise
  rw [List.pairwise_append] at hpairwise
  rw [List.mem_append, List.mem_singleton] at hp
  rcases hp with hp | rfl
  · exact Nat.le_of_lt (hpairwise.2.2 p hp q (List.mem_singleton_self q))
  · exact Nat.le_refl _

theorem rank_lt_last (h : Chart seen keys (stack ++ [q]) low followers done) {p : K}
    (hp : p ∈ stack) :
    rank keys p < rank keys q := by
  have hpairwise := h.stack_pairwise
  rw [List.pairwise_append] at hpairwise
  exact hpairwise.2.2 p hp q (List.mem_singleton_self q)

/-- A form that is not done is on the stack or waits. -/
theorem mem_stack_or_followers (h : Chart seen keys stack low followers done) {k : K}
    (hk : k ∈ keys) (active : k ∉ done) : k ∈ stack ∨ k ∈ followers := by
  by_cases hstack : k ∈ stack
  · exact Or.inl hstack
  · exact Or.inr ((h.followers_iff k).2 ⟨hk, active, hstack⟩)

/-! ### Discovering a form -/

section Enter

variable (h : Chart seen keys stack low followers done) (hnew : x ∉ keys)

include h hnew

theorem nested_enter {p : K} (hp : p ∈ stack ++ [x]) :
    followers.Pairwise fun a b => rank (keys ++ [x]) p < rank (keys ++ [x]) b →
      rank (keys ++ [x]) p < rank (keys ++ [x]) a := by
  have hfollower : ∀ {k}, k ∈ followers → k ∈ keys := fun hk => ((h.followers_iff _).1 hk).1
  rw [List.mem_append, List.mem_singleton] at hp
  rcases hp with hp | rfl
  · refine (h.nested p hp).imp_of_mem ?_
    intro a b ha hb hab
    rw [rank_concat_of_mem (h.stack_mem hp), rank_concat_of_mem (hfollower ha),
      rank_concat_of_mem (hfollower hb)]
    exact hab
  · -- nothing was discovered after the new form
    refine List.pairwise_of_forall_mem_list ?_
    intro a ha b hb hlt
    rw [rank_concat_self hnew, rank_concat_of_mem (hfollower hb)] at hlt
    have hle := rank_le_length (hfollower hb)
    omega

theorem covered_enter (hlow : ∀ k ∈ keys, low' k = low k) {k : K} (hk : k ∈ followers) :
    ∃ below p above, stack ++ [x] = below ++ p :: above ∧
      rank (keys ++ [x]) p < rank (keys ++ [x]) k ∧
      (∀ q ∈ above, rank (keys ++ [x]) k < rank (keys ++ [x]) q) ∧ low' p ≤ low' k := by
  have hkmem : k ∈ keys := ((h.followers_iff k).1 hk).1
  obtain ⟨below, p, above, hstack, hp, habove, hple⟩ := h.covered k hk
  have hpmem : p ∈ keys := h.stack_mem (by simp [hstack])
  refine ⟨below, p, above ++ [x], by simp [hstack], ?_, ?_, ?_⟩
  · rw [rank_concat_of_mem hpmem, rank_concat_of_mem hkmem]
    exact hp
  · intro q hq
    rw [rank_concat_of_mem hkmem]
    rw [List.mem_append, List.mem_singleton] at hq
    rcases hq with hq | rfl
    · rw [rank_concat_of_mem (h.stack_mem (by simp [hstack, hq]))]
      exact habove q hq
    · rw [rank_concat_self hnew]
      exact Nat.lt_succ_of_le (rank_le_length hkmem)
  · rw [hlow p hpmem, hlow k hkmem]
    exact hple

/-- All forms on the stack reach the new one, since the last of them has an edge to it. -/
theorem reaches_enter (hsub : ∀ {a b}, seen a b → seen' a b)
    (hsource : ∀ s, stack.getLast? = some s → seen' s x) {p k : K} (hp : p ∈ stack ++ [x])
    (hk : k ∈ keys ++ [x]) (hle : rank (keys ++ [x]) p ≤ rank (keys ++ [x]) k) :
    ReflTransGen seen' p k := by
  have hreach : ∀ {a b}, ReflTransGen seen a b → ReflTransGen seen' a b :=
    fun hab => ReflTransGen.mono (fun _ _ => hsub) _ _ hab
  rw [List.mem_append, List.mem_singleton] at hp hk
  rcases hp with hp | rfl
  · rcases hk with hk | rfl
    · rw [rank_concat_of_mem (h.stack_mem hp), rank_concat_of_mem hk] at hle
      exact hreach (h.reaches p hp k hk hle)
    · obtain ⟨s, hlast⟩ := Option.isSome_iff_exists.1
        (List.getLast?_isSome.2 (List.ne_nil_of_mem hp))
      obtain ⟨init, rfl⟩ := List.getLast?_eq_some_iff.1 hlast
      have hps := h.reaches p hp s (h.stack_mem (by simp)) (h.rank_le_last hp)
      exact (hreach hps).tail (hsource s hlast)
  · rcases hk with hk | rfl
    · rw [rank_concat_self hnew, rank_concat_of_mem hk] at hle
      have hle' := rank_le_length hk
      omega
    · exact .refl

/-- The chart is kept when a form is discovered along an edge of the last form on the stack, or as a
root if the stack is empty. -/
theorem enter (hsub : ∀ {a b}, seen a b → seen' a b)
    (hedge : ∀ {a b}, seen' a b → seen a b ∨ (stack.getLast? = some a ∧ b = x))
    (hsource : ∀ s, stack.getLast? = some s → seen' s x)
    (hlow : ∀ k ∈ keys, low' k = low k) (hself : low' x = keys.length + 1) :
    Chart seen' (keys ++ [x]) (stack ++ [x]) low' followers done := by
  have hrank : ∀ {k}, k ∈ keys → rank (keys ++ [x]) k = rank keys k := rank_concat_of_mem
  have hlast : rank (keys ++ [x]) x = keys.length + 1 := rank_concat_self hnew
  have hfollower : ∀ {k}, k ∈ followers → k ∈ keys := fun hk => ((h.followers_iff _).1 hk).1
  have hreach : ∀ {a b}, ReflTransGen seen a b → ReflTransGen seen' a b :=
    fun hab => ReflTransGen.mono (fun _ _ => hsub) _ _ hab
  have hgetLast : ∀ {s}, stack.getLast? = some s → s ∈ stack := fun hs => List.mem_of_getLast? hs
  refine ⟨?_, h.stack_sublist.append (List.Sublist.refl _), ?_, ?_, ?_,
    h.followers_nodup, ?_, ?_, ?_, ?_, fun p hp => h.nested_enter hnew hp, fun k hk =>
    h.covered_enter hnew hlow hk, fun p hp k hk hle =>
    h.reaches_enter hnew hsub hsource hp hk hle, ?_⟩
  · rw [List.nodup_append]
    refine ⟨h.nodup, List.nodup_singleton x, ?_⟩
    rintro a ha b hb rfl
    rw [List.mem_singleton] at hb
    exact hnew (hb ▸ ha)
  · intro k hk
    rw [List.mem_append, List.mem_singleton] at hk
    rcases hk with hk | rfl
    · exact h.stack_active k hk
    · exact fun hdone => hnew (h.done_mem k hdone)
  · exact fun k hk => List.mem_append_left _ (h.done_mem k hk)
  · intro k
    rw [h.followers_iff, List.mem_append, List.mem_append, List.mem_singleton, not_or]
    constructor
    · rintro ⟨hk, hdone, hstack⟩
      exact ⟨Or.inl hk, hdone, hstack, fun hkx => hnew (hkx ▸ hk)⟩
    · rintro ⟨hk, hdone, hstack, hkx⟩
      exact ⟨hk.resolve_right hkx, hdone, hstack⟩
  · intro a b hab
    rw [List.mem_append, List.mem_append, List.mem_singleton, List.mem_singleton]
    rcases hedge hab with hold | ⟨ha, rfl⟩
    · exact ⟨Or.inl (h.seen_mem hold).1, Or.inl (h.seen_mem hold).2⟩
    · exact ⟨Or.inl (h.stack_mem (hgetLast ha)), Or.inr rfl⟩
  · intro k hk
    rw [List.mem_append, List.mem_singleton] at hk
    rcases hk with hk | rfl
    · rw [hlow k hk, hrank hk]
      exact h.low_le k hk
    · exact Nat.le_of_eq (by rw [hself, hlast])
  · intro k hk hactive
    rw [List.mem_append, List.mem_singleton] at hk
    rcases hk with hk | rfl
    · obtain ⟨w, hw, hwactive, hwrank, hreached⟩ := h.low_reached k hk hactive
      refine ⟨w, List.mem_append_left _ hw, hwactive, ?_, hreach hreached⟩
      rw [hrank hw, hlow k hk, hwrank]
    · exact ⟨k, List.mem_append_right _ (List.mem_singleton_self k),
        hactive, by rw [hlast, hself], .refl⟩
  · intro k hk
    rw [hlow k (hfollower hk), hrank (hfollower hk)]
    exact h.follower_low k hk
  · intro a b hab
    rcases hedge hab with hold | ⟨ha, rfl⟩
    · obtain ⟨ha, hb⟩ := h.seen_mem hold
      rw [hlow a ha, hrank hb]
      exact h.low_edge hold
    · have ha := h.stack_mem (hgetLast ha)
      refine Or.inr (Or.inr ?_)
      rw [hlow a ha, hlast]
      exact Nat.le_trans (h.low_le a ha) (Nat.le_succ_of_le (rank_le_length ha))

end Enter

/-! ### Lowering a low value -/

omit [LawfulBEq K] in
/-- The chart is kept when a form on the stack takes over the low value of a form that it reaches,
unless that one is done. An edge between the two may be looked at for the first time. -/
theorem reach (h : Chart seen keys stack low followers done) (hu : u ∈ stack) (hx : x ∈ keys)
    (hsub : ∀ {a b}, seen a b → seen' a b)
    (hedge : ∀ {a b}, seen' a b → seen a b ∨ (a = u ∧ b = x))
    (hreach : ReflTransGen seen' u x) (hother : ∀ k, k ≠ u → low' k = low k)
    (hself : (x ∈ done ∧ low' u = low u) ∨ (x ∉ done ∧ low' u = min (low u) (low x))) :
    Chart seen' keys stack low' followers done := by
  have hmono : ∀ {a b}, ReflTransGen seen a b → ReflTransGen seen' a b :=
    fun hab => ReflTransGen.mono (fun _ _ => hsub) _ _ hab
  have hlowers : ∀ k, low' k ≤ low k := by
    intro k
    by_cases hk : k = u
    · rw [hk]
      rcases hself with ⟨-, hself⟩ | ⟨-, hself⟩
      · exact Nat.le_of_eq hself
      · rw [hself]
        exact Nat.min_le_left _ _
    · exact Nat.le_of_eq (hother k hk)
  have hfollower : ∀ {k}, k ∈ followers → low' k = low k := by
    intro k hk
    refine hother k ?_
    rintro rfl
    exact ((h.followers_iff k).1 hk).2.2 hu
  refine ⟨h.nodup, h.stack_sublist, h.stack_active, h.done_mem, h.followers_iff,
    h.followers_nodup, ?_, ?_, ?_, ?_, h.nested, ?_, ?_, ?_⟩
  · intro a b hab
    rcases hedge hab with hold | ⟨rfl, rfl⟩
    · exact h.seen_mem hold
    · exact ⟨h.stack_mem hu, hx⟩
  · exact fun k hk => Nat.le_trans (hlowers k) (h.low_le k hk)
  · intro k hk hactive
    have hkept : low' k = low k →
        ∃ w ∈ keys, w ∉ done ∧ rank keys w = low' k ∧ ReflTransGen seen' k w := by
      intro hlow
      obtain ⟨w, hw, hwactive, hwrank, hreached⟩ := h.low_reached k hk hactive
      exact ⟨w, hw, hwactive, hwrank.trans hlow.symm, hmono hreached⟩
    by_cases hku : k = u
    · subst hku
      rcases hself with ⟨-, hself⟩ | ⟨hxactive, hself⟩
      · exact hkept hself
      · rcases Nat.le_total (low k) (low x) with hle | hle
        · exact hkept (hself.trans (Nat.min_eq_left hle))
        · obtain ⟨w, hw, hwactive, hwrank, hreached⟩ := h.low_reached x hx hxactive
          refine ⟨w, hw, hwactive, ?_, hreach.trans (hmono hreached)⟩
          rw [hwrank, hself, Nat.min_eq_right hle]
    · exact hkept (hother k hku)
  · intro k hk
    rw [hfollower hk]
    exact h.follower_low k hk
  · intro k hk
    obtain ⟨below, p, above, hstack, hp, habove, hple⟩ := h.covered k hk
    refine ⟨below, p, above, hstack, hp, habove, ?_⟩
    rw [hfollower hk]
    exact Nat.le_trans (hlowers p) hple
  · exact fun p hp k hk hle => hmono (h.reaches p hp k hk hle)
  · intro a b hab
    rcases hedge hab with hold | ⟨rfl, rfl⟩
    · rcases h.low_edge hold with ha | hb | hle
      · exact Or.inl ha
      · exact Or.inr (Or.inl hb)
      · exact Or.inr (Or.inr (Nat.le_trans (hlowers a) hle))
    · rcases hself with ⟨hdone, -⟩ | ⟨-, hself⟩
      · exact Or.inr (Or.inl hdone)
      · refine Or.inr (Or.inr ?_)
        rw [hself]
        exact Nat.le_trans (Nat.min_le_right _ _) (h.low_le b hx)

/-! ### Leaving a form -/

omit [LawfulBEq K] in
/-- A follower is covered by the last form on the stack, or was discovered before it and is covered
by the rest of the stack. -/
theorem covered_concat (h : Chart seen keys (stack ++ [q]) low followers done) {k : K}
    (hk : k ∈ followers) :
    (rank keys q < rank keys k ∧ low q ≤ low k) ∨
      (rank keys k < rank keys q ∧ ∃ below p above, stack = below ++ p :: above ∧
        rank keys p < rank keys k ∧ (∀ q ∈ above, rank keys k < rank keys q) ∧ low p ≤ low k) := by
  obtain ⟨below, p, above, hstack, hp, habove, hple⟩ := h.covered k hk
  rcases List.eq_nil_or_concat above with rfl | ⟨above, last, rfl⟩
  · obtain ⟨-, hpq⟩ := List.append_inj' hstack rfl
    cases hpq
    exact Or.inl ⟨hp, hple⟩
  · rw [List.concat_eq_append] at hstack habove
    rw [← List.cons_append, ← List.append_assoc] at hstack
    obtain ⟨hinit, hlast⟩ := List.append_inj' hstack rfl
    cases hlast
    exact Or.inr ⟨habove q (by simp), below, p, above, hinit, hp,
      fun b hb => habove b (List.mem_append_left _ hb), hple⟩

omit [LawfulBEq K] in
/-- What was discovered after the last form on the stack and is still active is covered by it. -/
theorem last_le_low (h : Chart seen keys (stack ++ [q]) low followers done) {k : K}
    (hk : k ∈ followers) (hlt : rank keys q < rank keys k) : low q ≤ low k := by
  rcases h.covered_concat hk with ⟨-, hle⟩ | ⟨hgt, -⟩
  · exact hle
  · omega

/-- The only form on the stack leads its component. -/
theorem low_eq_of_singleton (h : Chart seen keys [q] low followers done) : low q = rank keys q := by
  have hq : q ∈ [q] := List.mem_singleton_self q
  refine Nat.le_antisymm (h.low_le q (h.stack_mem hq)) ?_
  obtain ⟨w, hw, hactive, hwrank, -⟩ := h.low_reached q (h.stack_mem hq) (h.stack_active q hq)
  rw [← hwrank]
  rcases h.mem_stack_or_followers hw hactive with hstack | hfollower
  · exact Nat.le_of_eq (by rw [List.mem_singleton.1 hstack])
  · obtain ⟨below, p, above, hsplit, hp, -, -⟩ := h.covered w hfollower
    have hpq : p ∈ [q] := by rw [hsplit]; simp
    rw [← List.mem_singleton.1 hpq]
    exact Nat.le_of_lt hp

/-- The chart is kept when a form that does not lead is left, after its parent has taken over its
low value. -/
theorem leave_follower (h : Chart seen keys (stack ++ [q]) low followers done)
    (hfollows : low q ≠ rank keys q) (hparent : ∀ p, stack.getLast? = some p → low p ≤ low q) :
    Chart seen keys stack low (q :: followers) done := by
  have hq : q ∈ stack ++ [q] := by simp
  have hqmem := h.stack_mem hq
  have hqactive := h.stack_active q hq
  have hqstack : q ∉ stack := fun hmem => Nat.lt_irrefl _ (h.rank_lt_last hmem)
  have hqlow : low q < rank keys q := Nat.lt_of_le_of_ne (h.low_le q hqmem) hfollows
  -- a form that is alone on the stack leads, so there is a parent
  obtain ⟨init, parent, rfl⟩ : ∃ init parent, stack = init ++ [parent] := by
    rcases List.eq_nil_or_concat stack with rfl | ⟨init, parent, rfl⟩
    · exact absurd h.low_eq_of_singleton hfollows
    · exact ⟨init, parent, List.concat_eq_append⟩
  have hple : low parent ≤ low q := hparent parent (List.getLast?_concat ..)
  have hplt : rank keys parent < rank keys q := h.rank_lt_last (by simp)
  refine ⟨h.nodup, (List.sublist_append_left _ _).trans h.stack_sublist,
    fun k hk => h.stack_active k (List.mem_append_left _ hk), h.done_mem, ?_, ?_,
    h.seen_mem, h.low_le, h.low_reached, ?_, ?_, ?_, fun p hp =>
    h.reaches p (List.mem_append_left _ hp), h.low_edge⟩
  · intro k
    rw [List.mem_cons, h.followers_iff]
    constructor
    · rintro (rfl | ⟨hk, hactive, hstack⟩)
      · exact ⟨hqmem, hqactive, hqstack⟩
      · exact ⟨hk, hactive, fun hmem => hstack (List.mem_append_left _ hmem)⟩
    · rintro ⟨hk, hactive, hstack⟩
      by_cases hkq : k = q
      · exact Or.inl hkq
      · refine Or.inr ⟨hk, hactive, ?_⟩
        rw [List.mem_append, List.mem_singleton]
        exact fun hmem => hmem.elim hstack hkq
  · refine List.nodup_cons.2 ⟨?_, h.followers_nodup⟩
    exact fun hmem => ((h.followers_iff q).1 hmem).2.2 hq
  · intro k hk
    rcases List.mem_cons.1 hk with rfl | hk
    · exact hqlow
    · exact h.follower_low k hk
  · intro p hp
    refine List.pairwise_cons.2 ⟨?_, h.nested p (List.mem_append_left _ hp)⟩
    exact fun b _ _ => h.rank_lt_last hp
  · intro k hk
    rcases List.mem_cons.1 hk with rfl | hk
    · exact ⟨init, parent, [], rfl, hplt, fun _ hmem => (List.not_mem_nil hmem).elim, hple⟩
    · rcases h.covered_concat hk with ⟨hlt, hle⟩ | ⟨-, hcovered⟩
      · exact ⟨init, parent, [], rfl, Nat.lt_trans hplt hlt,
          fun _ hmem => (List.not_mem_nil hmem).elim, Nat.le_trans hple hle⟩
      · exact hcovered

/-! ### Completing a component -/

/-- The members of the component that `q` leads. -/
def members (low : K → Nat) (followers : List K) (q : K) : List K :=
  q :: followers.takeWhile fun k => decide (low q ≤ low k)

/-- The followers that go on waiting when `q` completes its component. -/
def remaining (low : K → Nat) (followers : List K) (q : K) : List K :=
  followers.dropWhile fun k => decide (low q ≤ low k)

section Leader

variable (h : Chart seen keys (stack ++ [q]) low followers done) (leads : low q = rank keys q)

include h leads

omit [LawfulBEq K] in
/-- The followers in the component of a leader are those that were discovered after it. -/
theorem mem_takeWhile_iff {k : K} :
    (k ∈ followers.takeWhile fun k => decide (low q ≤ low k)) ↔
      k ∈ followers ∧ rank keys q < rank keys k := by
  constructor
  · intro hk
    have hmem := (List.takeWhile_sublist _).subset hk
    have hle : low q ≤ low k := by simpa using List.mem_takeWhile_imp hk
    have hlow := h.follower_low k hmem
    exact ⟨hmem, by omega⟩
  · rintro ⟨hk, hlt⟩
    rw [← List.takeWhile_append_dropWhile (p := fun k => decide (low q ≤ low k)) (l := followers),
      List.mem_append] at hk
    rcases hk with hk | hk
    · exact hk
    · -- the first follower that stays behind was discovered before the leader, so `k` was too
      exfalso
      have hnested := h.nested q (by simp)
      have hsub := List.dropWhile_sublist (fun k => decide (low q ≤ low k)) (l := followers)
      cases hdrop : followers.dropWhile fun k => decide (low q ≤ low k) with
      | nil =>
        rw [hdrop] at hk
        cases hk
      | cons d rest =>
        rw [hdrop] at hk hsub
        have hd : ¬ low q ≤ low d := by
          have hhead := List.head_dropWhile_not (fun k => decide (low q ≤ low k)) (l := followers)
            (by rw [hdrop]; exact List.cons_ne_nil _ _)
          simpa [hdrop] using hhead
        have hdmem : d ∈ followers := hsub.subset List.mem_cons_self
        have hdlt : rank keys q < rank keys d := by
          rcases List.mem_cons.1 hk with rfl | hk
          · exact hlt
          · exact (List.pairwise_cons.1 (hnested.sublist hsub)).1 k hk hlt
        exact hd (h.last_le_low hdmem hdlt)

/-- The members of a component are the active forms that were not discovered before its leader. -/
theorem mem_members_iff {k : K} :
    k ∈ members low followers q ↔ k ∈ keys ∧ k ∉ done ∧ rank keys q ≤ rank keys k := by
  have hq : q ∈ stack ++ [q] := by simp
  unfold members
  rw [List.mem_cons, h.mem_takeWhile_iff leads]
  constructor
  · rintro (rfl | ⟨hk, hlt⟩)
    · exact ⟨h.stack_mem hq, h.stack_active k hq, Nat.le_refl _⟩
    · obtain ⟨hmem, hactive, -⟩ := (h.followers_iff k).1 hk
      exact ⟨hmem, hactive, Nat.le_of_lt hlt⟩
  · rintro ⟨hk, hactive, hle⟩
    by_cases hkq : k = q
    · exact Or.inl hkq
    · rcases h.mem_stack_or_followers hk hactive with hstack | hfollower
      · exact absurd (rank_inj hk (Nat.le_antisymm (h.rank_le_last hstack) hle)) hkq
      · refine Or.inr ⟨hfollower, Nat.lt_of_le_of_ne hle ?_⟩
        exact fun heq => hkq (rank_inj hk heq.symm)

theorem mem_remaining_iff {k : K} :
    k ∈ remaining low followers q ↔ k ∈ followers ∧ rank keys k < rank keys q := by
  have hsplit := List.takeWhile_append_dropWhile
    (p := fun k => decide (low q ≤ low k)) (l := followers)
  have hnodup := h.followers_nodup
  rw [← hsplit, List.nodup_append] at hnodup
  have hne : k ∈ followers → rank keys k ≠ rank keys q := by
    intro hk heq
    obtain ⟨hmem, -, hstack⟩ := (h.followers_iff k).1 hk
    exact hstack (by simp [rank_inj hmem heq])
  unfold remaining
  constructor
  · intro hk
    have hmem := (List.dropWhile_sublist _).subset hk
    refine ⟨hmem, Nat.lt_of_le_of_ne (Nat.le_of_not_lt fun hlt => ?_) (hne hmem)⟩
    exact hnodup.2.2 k ((h.mem_takeWhile_iff leads).2 ⟨hmem, hlt⟩) k hk rfl
  · rintro ⟨hk, hlt⟩
    have hmem := hk
    rw [← hsplit, List.mem_append] at hmem
    rcases hmem with htake | hdrop
    · have hgt := ((h.mem_takeWhile_iff leads).1 htake).2
      omega
    · exact hdrop

/-- The members of a component reach each other. -/
theorem members_reach {a b : K} (ha : a ∈ members low followers q)
    (hb : b ∈ members low followers q) :
    ReflTransGen seen a b := by
  have hq : q ∈ stack ++ [q] := by simp
  -- the low value of a member is the rank of a member that it reaches, and smaller unless it leads
  have hback : ∀ n, ∀ k ∈ members low followers q, rank keys k = n → ReflTransGen seen k q := by
    intro n
    induction n using Nat.strongRecOn with
    | ind n ih =>
      intro k hk hn
      obtain ⟨hmem, hactive, hle⟩ := (h.mem_members_iff leads).1 hk
      rcases List.mem_cons.1 hk with rfl | htake
      · exact .refl
      · obtain ⟨hfollower, hlt⟩ := (h.mem_takeWhile_iff leads).1 htake
        obtain ⟨w, hw, hwactive, hwrank, hreached⟩ := h.low_reached k hmem hactive
        have hlow := h.last_le_low hfollower hlt
        have hless := h.follower_low k hfollower
        have hwmem : w ∈ members low followers q :=
          (h.mem_members_iff leads).2 ⟨hw, hwactive, by omega⟩
        exact hreached.trans (ih (rank keys w) (by omega) w hwmem rfl)
  obtain ⟨hbmem, -, hble⟩ := (h.mem_members_iff leads).1 hb
  exact (hback _ a ha rfl).trans (h.reaches q hq b hbmem hble)

/-- An edge of a member leads to a member or to a form that is done. -/
theorem members_closed {a b : K} (ha : a ∈ members low followers q) (hab : seen a b) :
    b ∈ done ∨ b ∈ members low followers q := by
  by_cases hb : b ∈ done
  · exact Or.inl hb
  · right
    obtain ⟨-, hactive, -⟩ := (h.mem_members_iff leads).1 ha
    refine (h.mem_members_iff leads).2 ⟨(h.seen_mem hab).2, hb, ?_⟩
    have hle : low a ≤ rank keys b := ((h.low_edge hab).resolve_left hactive).resolve_left hb
    rcases List.mem_cons.1 ha with rfl | htake
    · omega
    · obtain ⟨hfollower, hlt⟩ := (h.mem_takeWhile_iff leads).1 htake
      have hlow := h.last_le_low hfollower hlt
      omega

/-- The chart is kept when a leader completes its component. -/
theorem leave_leader :
    Chart seen keys stack low (remaining low followers q) (done ++ members low followers q) := by
  have hstack : ∀ {p}, p ∈ stack → p ∈ stack ++ [q] := fun hp => List.mem_append_left _ hp
  have hactive : ∀ {k}, k ∈ keys → k ∉ done → rank keys k < rank keys q →
      k ∉ done ++ members low followers q := by
    intro k hk hdone hlt
    rw [List.mem_append, not_or]
    refine ⟨hdone, fun hmem => ?_⟩
    have hle := ((h.mem_members_iff leads).1 hmem).2.2
    omega
  have hremaining : ∀ {k}, k ∈ remaining low followers q → k ∈ followers :=
    fun hk => ((h.mem_remaining_iff leads).1 hk).1
  have hsublist : (remaining low followers q).Sublist followers := List.dropWhile_sublist _
  refine ⟨h.nodup, (List.sublist_append_left _ _).trans h.stack_sublist, ?_, ?_, ?_,
    h.followers_nodup.sublist hsublist, h.seen_mem, h.low_le, ?_, ?_, ?_, ?_,
    fun p hp => h.reaches p (hstack hp), ?_⟩
  · intro k hk
    exact hactive (h.stack_mem (hstack hk)) (h.stack_active k (hstack hk)) (h.rank_lt_last hk)
  · intro k hk
    rcases List.mem_append.1 hk with hk | hk
    · exact h.done_mem k hk
    · exact ((h.mem_members_iff leads).1 hk).1
  · intro k
    rw [h.mem_remaining_iff leads, h.followers_iff]
    constructor
    · rintro ⟨⟨hk, hdone, hnot⟩, hlt⟩
      exact ⟨hk, hactive hk hdone hlt, fun hmem => hnot (hstack hmem)⟩
    · rintro ⟨hk, hdone, hnot⟩
      rw [List.mem_append, not_or, h.mem_members_iff leads] at hdone
      have hlt : rank keys k < rank keys q :=
        Nat.lt_of_not_le fun hle => hdone.2 ⟨hk, hdone.1, hle⟩
      refine ⟨⟨hk, hdone.1, ?_⟩, hlt⟩
      rw [List.mem_append, List.mem_singleton]
      rintro (hmem | rfl)
      · exact hnot hmem
      · exact Nat.lt_irrefl _ hlt
  · -- what is still active was discovered before the leader, and so was what its low value
    -- stands for
    intro k hk hdone
    rw [List.mem_append, not_or, h.mem_members_iff leads] at hdone
    have hlt : rank keys k < rank keys q :=
      Nat.lt_of_not_le fun hle => hdone.2 ⟨hk, hdone.1, hle⟩
    obtain ⟨w, hw, hwactive, hwrank, hreached⟩ := h.low_reached k hk hdone.1
    have hle := h.low_le k hk
    exact ⟨w, hw, hactive hw hwactive (by omega), hwrank, hreached⟩
  · exact fun k hk => h.follower_low k (hremaining hk)
  · exact fun p hp => (h.nested p (hstack hp)).sublist hsublist
  · intro k hk
    obtain ⟨hfollower, hlt⟩ := (h.mem_remaining_iff leads).1 hk
    rcases h.covered_concat hfollower with ⟨hgt, -⟩ | ⟨-, hcovered⟩
    · omega
    · exact hcovered
  · intro a b hab
    rw [List.mem_append, List.mem_append]
    rcases h.low_edge hab with ha | hb | hle
    · exact Or.inl (Or.inl ha)
    · exact Or.inr (Or.inl (Or.inl hb))
    · exact Or.inr (Or.inr hle)

end Leader

end Chart

end StateExplorer.Components
