import StateExplorer.Check.Nested.Colored
import StateExplorer.Proofs.Nested.Basic

/-!
# Inner searches that share their colours

An inner search paints red the forms that it enters, all of which were blue (`Reddened`). It stops
at an edge to a cyan form. The cyan forms are those on the stack of the outer search, and their
weights count the accepting vertices on the stack (`Tinted`), so both an inner search that stops and
an early end of the outer search show a lasso, whatever the canonical forms are.

That a check without a lasso is right rests on what the colours mean for the reachable vertices
between the inner searches (`Shaded`): red forms lead to red forms only, accepting vertices of red
forms do not recur, and blue forms have no accepting vertices.
-/

namespace StateExplorer.NestedSearch

open Relation DepthSearch Event

variable {V K κ : Type} {m : Type → Type} [Monad m] [MonadExceptOf Fault m] [Returning m] [BEq K]
  [LawfulBEq K] [Hashable K] [LawfulHashable K] {graph : StateGraph Id V} {key : V → K}

/-! ## A single inner search -/

section Red

variable {palette : Palette K} {log : List (Event V)} {search : DepthSearch V (RedStore K)}

/-- What an inner search discovers was blue. -/
theorem blue_of_discovered
    (h : Explores graph key (fresh graph ({ palette } : RedStore K) none) log search) {v : V}
    (hv : v ∈ discoveries log) : palette.color? (key v) = some .blue := by
  have hnew := (h.nodup_discoveries (RedStore.faithful _)).2 v hv
  by_contra hblue
  rw [(RedStore.knows_iff _ _).2 hblue] at hnew
  cases hnew

/-- An inner search leaves the cyan forms alone. -/
theorem cyan_iff_of_explores
    (h : Explores graph key (fresh graph ({ palette } : RedStore K) none) log search) (k : K) :
    search.known.palette.color? k = some .cyan ↔ palette.color? k = some .cyan := by
  rw [h.known_eq, RedStore.color?_learnAll]
  by_cases hk : k ∈ (discoveries log).map key
  · obtain ⟨v, hv, rfl⟩ := List.mem_map.1 hk
    simp [hk, blue_of_discovered h hv]
  · simp [hk]

theorem redVisitor_upholds (graph : StateGraph Id V) (key : V → K) (palette : Palette K)
    (seed : V) :
    Upholds (m := m) graph key (fresh graph ({ palette } : RedStore K) none)
      (redVisitor (graph.under key) seed)
      (fun log _ closing => closing = none ∧ ∀ source target, Event.known source target ∈ log →
        palette.color? (key target) ≠ some .cyan)
      (fun search closing => ∃ target, closing = some (search.path.getLast?.getD seed, target) ∧
        palette.color? (key target) = some .cyan ∧ graph.Walk none (search.path ++ [target])) where
  enter := by
    intro log search state top rest target signal state' explores inv items offer new told
    cases Returning.of_pure told
    exact ⟨inv.1, by simpa using inv.2⟩
  revisit := by
    intro log search state top rest target signal state' explores inv items offer old told
    have told := Returning.of_pure_bind told
    split at told
    · next hcyan =>
      cases Returning.of_pure told
      refine ⟨target, ?_, (cyan_iff_of_explores explores _).1 (eq_of_beq hcyan), ?_⟩
      · rw [path_advance, explores.grounded.getLast?_path items]
      · rw [path_advance]
        exact explores.grounded.walk_concat items (explores.target_mem items offer)
    · next hcyan =>
      cases Returning.of_pure told
      refine ⟨inv.1, ?_⟩
      intro source' target' hknown
      rw [List.mem_append, List.mem_singleton] at hknown
      rcases hknown with hold | hnow
      · exact inv.2 source' target' hold
      · cases hnow
        intro hpalette
        exact hcyan (beq_iff_eq.2 ((cyan_iff_of_explores explores _).2 hpalette))
  leave := by
    intro log search state top rest vertex signal state' explores inv items offer hv told
    cases Returning.of_pure told
    exact ⟨inv.1, by simpa using inv.2⟩
  finish := fun _ inv _ _ _ => inv

/-- What an inner search from `seed` does to the colours if it comes to its end: it paints blue
forms red until the red ones are closed, but for white ones, and `seed` itself at last. -/
structure Reddened (graph : StateGraph Id V) (key : V → K) (seed : V) (before after : Palette K)
    (painted : List V) : Prop where
  behind : ∀ v ∈ painted, TransGen graph.Edge seed v
  blue : ∀ v ∈ painted, before.color? (key v) = some .blue
  closed : ∀ u, u = seed ∨ u ∈ painted → ∀ x ∈ graph.after (some u),
    key x ∈ painted.map key ∨ before.color? (key x) = some .red ∨ before.color? (key x) = none
  color?_eq : ∀ k, after.color? k =
    if k ∈ key seed :: painted.map key then some .red else before.color? k
  weight_eq : ∀ k, after.weight k = before.weight k

theorem reddened_of_over {seed : V}
    (h : Explores (graph.rootedAfter seed) key
      (fresh (graph.rootedAfter seed) ({ palette } : RedStore K) none) log search)
    (ended : search.stack.items = [])
    (hcyan : ∀ source target, Event.known source target ∈ log →
      palette.color? (key target) ≠ some .cyan) :
    Reddened graph key seed palette (search.known.palette.paint (key seed) .red)
      (discoveries log) where
  behind _ hv := StateGraph.reachable_rootedAfter.1 (h.reachable hv)
  blue _ := blue_of_discovered h
  closed := by
    intro u hu x hx
    have hopened : ∃ source, Opened log source ∧ x ∈ (graph.rootedAfter seed).after source := by
      rcases hu with rfl | hu
      · exact ⟨none, trivial, hx⟩
      · exact ⟨some u, hu, hx⟩
    obtain ⟨source, hopen, hmem⟩ := hopened
    rcases h.closed_of_over (RedStore.faithful _) ended hopen hmem with hknown | hfound
    · rcases h.lookedAt_or_pending hopen hmem with (hentry | hrevisit) | ⟨frame, hframe, -⟩
      · exact Or.inl (List.mem_map_of_mem (mem_discoveries_of_entry hentry))
      · have hblue := (RedStore.knows_iff _ _).1 hknown
        have hcyan := hcyan source x hrevisit
        cases hcolor : palette.color? (key x) with
        | none => exact Or.inr (Or.inr rfl)
        | some color =>
          cases color with
          | cyan => exact absurd hcolor hcyan
          | blue => exact absurd hcolor hblue
          | red => exact Or.inr (Or.inl rfl)
      · rw [ended] at hframe
        cases hframe
    · exact Or.inl hfound
  color?_eq := by
    intro k
    by_cases hk : k = key seed
    · rw [hk, Palette.color?_paint_self, ite_self, if_pos List.mem_cons_self]
    · rw [Palette.color?_paint_of_ne _ _ hk, h.known_eq, RedStore.color?_learnAll]
      simp only [List.mem_cons, hk, false_or]
  weight_eq := by
    intro k
    rw [Palette.weight_paint, h.known_eq, RedStore.weight_learnAll]

variable [LawfulMonad m] [Journal m] [Render V] {poll : m Bool} {fuel : Nat}

/-- An inner search comes to its end, or a poll stops it, or it finds a way to a cyan form. -/
theorem redSearch_returns {seed : V} {path : List V} {blue blue' : BlueState V K} {signal : Signal}
    (h : Returns (redSearch fuel poll (graph.under key) seed path blue) (signal, blue')) :
    signal.Ensures
      ((∃ painted, Reddened graph key seed blue.palette blue'.palette painted) ∧
        blue'.findings.answer = blue.findings.answer ∧
        blue'.findings.cancelled = blue.findings.cancelled)
      ((blue'.findings.cancelled = true ∧ Returns poll true) ∨
        (blue'.findings.cancelled = blue.findings.cancelled ∧
          ∃ inner target, blue.palette.color? (key target) = some .cyan ∧
            graph.Walk (some seed) (inner ++ [target]) ∧
            blue'.findings.answer = .violated (.edge (inner.getLast?.getD seed) target)
              (path ++ [seed] ++ inner ++ [target]))) := by
  obtain ⟨outcome, t, h, hend⟩ :=
    (redVisitor_upholds (graph.rootedAfter seed) key blue.palette seed).start_run
      ⟨rfl, fun source target hknown => by cases hknown⟩ h
  have h := Returning.of_seq h
  match outcome with
  | .cancelled =>
    cases Returning.of_pure h
    exact Or.inl ⟨rfl, hend.1⟩
  | .aborted =>
    obtain ⟨target, hclosing, hcyan, hwalk⟩ := hend
    simp only [hclosing] at h
    cases Returning.of_pure (Returning.of_seq h)
    exact Or.inr ⟨rfl, t.search.path, target, hcyan, StateGraph.walk_rootedAfter.1 hwalk, rfl⟩
  | .exhausted =>
    obtain ⟨hover, log, hexplores, -, hcyan⟩ := hend
    have h := Returning.of_pure_bind h
    cases Returning.of_pure h
    exact ⟨⟨_, reddened_of_over hexplores hover hcyan⟩, rfl, rfl⟩

end Red

/-! ## The stack of the outer search -/

/-- The cyan forms are those on the stack, and the weight of a form on the stack is the number of
accepting vertices up to it. -/
structure Tinted (key : V → K) (accepting : V → Bool) (path : List V) (palette : Palette K) :
    Prop where
  cyan_iff : ∀ k, palette.color? k = some .cyan ↔ k ∈ path.map key
  weight_eq : ∀ stem v rest, path = stem ++ v :: rest →
    palette.weight (key v) = (stem ++ [v]).countP accepting

namespace Tinted

variable {accepting : V → Bool} {path : List V} {palette palette' : Palette K} {vertex : V}

omit [LawfulBEq K] [LawfulHashable K] in
/-- The weight of the last form on the stack. -/
theorem weight_getLast? (h : Tinted key accepting path palette)
    (hlast : path.getLast? = some vertex) :
    palette.weight (key vertex) = path.countP accepting := by
  obtain ⟨init, rfl⟩ := List.getLast?_eq_some_iff.1 hlast
  exact h.weight_eq init vertex [] rfl

omit [LawfulBEq K] [LawfulHashable K] in
/-- The weight of the last form on the stack, or zero if there is none, counts the accepting
vertices on the stack. -/
theorem weight_below (h : Tinted key accepting path palette) :
    (path.getLast?.elim 0 fun last => palette.weight (key last)) = path.countP accepting := by
  cases hlast : path.getLast? with
  | none =>
    rw [List.getLast?_eq_none_iff.1 hlast]
    rfl
  | some last => exact h.weight_getLast? hlast

theorem enter (h : Tinted key accepting path palette) (hnew : key vertex ∉ path.map key) :
    Tinted key accepting (path ++ [vertex])
      (palette.enter (key vertex) (path.countP accepting + if accepting vertex then 1 else 0)) where
  cyan_iff := by
    intro k
    rw [List.map_append, List.mem_append, List.map_singleton, List.mem_singleton]
    by_cases hk : k = key vertex
    · simp [hk, Palette.color?_enter_self]
    · rw [Palette.color?_enter_of_ne _ _ hk, h.cyan_iff]
      simp [hk]
  weight_eq := by
    apply forall_split_concat
    · intro stem v rest hpath
      have hv : key v ≠ key vertex := by
        intro hv
        apply hnew
        rw [← hv, hpath]
        simp
      rw [Palette.weight_enter_of_ne _ _ hv]
      exact h.weight_eq stem v rest hpath
    · rw [Palette.weight_enter_self, List.countP_append, List.countP_singleton]

omit [LawfulBEq K] [LawfulHashable K] in
theorem leave (h : Tinted key accepting (path ++ [vertex]) palette)
    (hcolor : ∀ k, palette'.color? k = some .cyan ↔ k ≠ key vertex ∧ palette.color? k = some .cyan)
    (hweight : ∀ k, palette'.weight k = palette.weight k)
    (hnodup : ((path ++ [vertex]).map key).Nodup) : Tinted key accepting path palette' where
  cyan_iff := by
    intro k
    rw [hcolor, h.cyan_iff, List.map_append, List.mem_append, List.map_singleton,
      List.mem_singleton]
    rw [List.map_append, List.nodup_append] at hnodup
    constructor
    · rintro ⟨hne, hk | hk⟩
      · exact hk
      · exact absurd hk hne
    · intro hk
      refine ⟨?_, Or.inl hk⟩
      exact hnodup.2.2 k hk (key vertex) (List.mem_singleton_self _)
  weight_eq := by
    intro stem v rest hpath
    rw [hweight]
    exact h.weight_eq stem v (rest ++ [vertex]) (by rw [hpath]; simp)

theorem leave_plain (h : Tinted key accepting (path ++ [vertex]) palette)
    (hnodup : ((path ++ [vertex]).map key).Nodup) :
    Tinted key accepting path (palette.paint (key vertex) .blue) := by
  refine h.leave ?_ (fun k => Palette.weight_paint _ _ _ _) hnodup
  have hcyan : palette.color? (key vertex) = some .cyan := by
    rw [h.cyan_iff]
    simp
  intro k
  by_cases hk : k = key vertex
  · rw [hk, Palette.color?_paint_self, hcyan]
    simp
  · rw [Palette.color?_paint_of_ne _ _ hk]
    simp [hk]

omit [LawfulHashable K] in
theorem leave_accepting (h : Tinted key accepting (path ++ [vertex]) palette) {painted : List V}
    (reddened : Reddened graph key vertex palette palette' painted)
    (hnodup : ((path ++ [vertex]).map key).Nodup) : Tinted key accepting path palette' := by
  refine h.leave ?_ reddened.weight_eq hnodup
  intro k
  rw [reddened.color?_eq]
  split
  · next hk =>
    rcases List.mem_cons.1 hk with rfl | hk
    · simp
    · obtain ⟨d, hd, rfl⟩ := List.mem_map.1 hk
      simp [reddened.blue d hd]
  · next hk =>
    rw [List.mem_cons, not_or] at hk
    simp [hk.1]

omit [LawfulBEq K] [LawfulHashable K] in
/-- An edge to a cyan form closes a lasso if there is an accepting vertex from there on. -/
theorem isLasso (h : Tinted key accepting path palette) {inner : List V} {source target : V}
    (hwalk : graph.Walk none (path ++ inner ++ [target]))
    (hcyan : palette.color? (key target) = some .cyan)
    (hsource : (path ++ inner).getLast? = some source)
    (haccepting : ∀ stem entry loop, path = stem ++ entry :: loop → key entry = key target →
      ∃ v ∈ entry :: (loop ++ inner) ++ [target], accepting v = true) :
    IsLasso graph key accepting (.edge source target) (path ++ inner ++ [target]) := by
  obtain ⟨entry, hentry, hkey⟩ := List.mem_map.1 ((h.cyan_iff _).1 hcyan)
  obtain ⟨stem, loop, rfl⟩ := List.append_of_mem hentry
  rw [List.append_assoc stem, List.cons_append] at hwalk hsource ⊢
  rw [List.getLast?_append, List.getLast?_cons, Option.some_or] at hsource
  refine isLasso_of_walk hwalk hkey (haccepting stem entry loop rfl hkey) ?_
  rw [List.getLast?_cons, hsource]

end Tinted

/-! ## What the colours mean -/

/-- The coloured forms are those of the vertices found so far, and among the reachable vertices, red
forms lead to red forms only, accepting vertices of red forms do not recur, and blue forms have no
accepting vertices. -/
structure Shaded (graph : StateGraph Id V) (key : V → K) (accepting : V → Bool) (found : List V)
    (palette : Palette K) : Prop where
  white_iff : ∀ k, palette.color? k = none ↔ k ∉ found.map key
  red_next : ∀ ⦃u x⦄, graph.Reachable u → palette.color? (key u) = some .red →
    x ∈ graph.after (some u) → palette.color? (key x) = some .red
  red_vain : ∀ ⦃u⦄, graph.Reachable u → palette.color? (key u) = some .red → accepting u = true →
    ¬ graph.Recurs key u
  blue_plain : ∀ ⦃u⦄, graph.Reachable u → palette.color? (key u) = some .blue → accepting u = false

namespace Shaded

variable {accepting : V → Bool} {found : List V} {palette palette' : Palette K} {vertex : V}

theorem enter (h : Shaded graph key accepting found palette) (hnew : key vertex ∉ found.map key)
    (weight : Nat) :
    Shaded graph key accepting (found ++ [vertex]) (palette.enter (key vertex) weight) := by
  have hwhite : palette.color? (key vertex) = none := (h.white_iff _).2 hnew
  -- only a white form changes its colour, and it turns cyan
  have hkept : ∀ {k color}, color ≠ .cyan →
      ((palette.enter (key vertex) weight).color? k = some color ↔
        palette.color? k = some color) := by
    intro k color hcolor
    by_cases hk : k = key vertex
    · rw [hk, Palette.color?_enter_self, hwhite]
      simp [hcolor.symm]
    · rw [Palette.color?_enter_of_ne _ _ hk]
  refine ⟨?_, ?_, ?_, ?_⟩
  · intro k
    rw [List.map_append, List.mem_append, List.map_singleton, List.mem_singleton]
    by_cases hk : k = key vertex
    · simp [hk, Palette.color?_enter_self]
    · rw [Palette.color?_enter_of_ne _ _ hk, h.white_iff]
      simp [hk]
  · intro u x hreach hu hx
    exact (hkept (by decide)).2 (h.red_next hreach ((hkept (by decide)).1 hu) hx)
  · intro u hreach hu
    exact h.red_vain hreach ((hkept (by decide)).1 hu)
  · intro u hreach hu
    exact h.blue_plain hreach ((hkept (by decide)).1 hu)

theorem leave_plain (h : Shaded graph key accepting found palette)
    (compatible : graph.Compatible key accepting) (hvertex : graph.Reachable vertex)
    (hcyan : palette.color? (key vertex) = some .cyan) (hplain : accepting vertex = false) :
    Shaded graph key accepting found (palette.paint (key vertex) .blue) := by
  have hself : (palette.paint (key vertex) .blue).color? (key vertex) = some .blue := by
    rw [Palette.color?_paint_self, hcyan]
    rfl
  have hred : ∀ {k}, (palette.paint (key vertex) .blue).color? k = some .red ↔
      palette.color? k = some .red := by
    intro k
    by_cases hk : k = key vertex
    · rw [hk, hself, hcyan]
      simp
    · rw [Palette.color?_paint_of_ne _ _ hk]
  refine ⟨?_, ?_, ?_, ?_⟩
  · intro k
    rw [← h.white_iff]
    by_cases hk : k = key vertex
    · rw [hk, hself, hcyan]
      simp
    · rw [Palette.color?_paint_of_ne _ _ hk]
  · intro u x hreach hu hx
    exact hred.2 (h.red_next hreach (hred.1 hu) hx)
  · intro u hreach hu
    exact h.red_vain hreach (hred.1 hu)
  · intro u hreach hu
    by_cases hk : key u = key vertex
    · exact (compatible.stable hreach hvertex hk).trans hplain
    · rw [Palette.color?_paint_of_ne _ _ hk] at hu
      exact h.blue_plain hreach hu

omit [LawfulHashable K] in
/-- The colours keep their meaning when an inner search from an accepting vertex comes to its
end. -/
theorem leave_accepting (h : Shaded graph key accepting found palette)
    (compatible : graph.Compatible key accepting) (hvertex : graph.Reachable vertex)
    (hcyan : palette.color? (key vertex) = some .cyan) {painted : List V}
    (reddened : Reddened graph key vertex palette palette' painted)
    (hclosed : ∀ {u x}, graph.Reachable u → u = vertex ∨ palette.color? (key u) = some .blue →
      x ∈ graph.after (some u) → palette.color? (key x) ≠ none) :
    Shaded graph key accepting found palette' := by
  -- the red forms other than that of `vertex` are closed, and successors of `vertex` are among them
  let inside (k : K) : Prop := k ∈ painted.map key ∨ palette.color? k = some .red
  have hreached : ∀ {d}, d ∈ painted → graph.Reachable d := fun hd =>
    hvertex.trans (reddened.behind _ hd).to_reflTransGen
  have hnext : ∀ {u x}, graph.Reachable u → key u = key vertex ∨ inside (key u) →
      x ∈ graph.after (some u) → inside (key x) := by
    have hpainted : ∀ {d x}, graph.Reachable d → d = vertex ∨ d ∈ painted →
        x ∈ graph.after (some d) → inside (key x) := by
      intro d x hreach hd hx
      rcases reddened.closed d hd x hx with hin | hin | hwhite
      · exact Or.inl hin
      · exact Or.inr hin
      · exact absurd hwhite (hclosed hreach (hd.imp id (reddened.blue d)) hx)
    intro u x hreach hu hx
    rcases hu with hu | hu | hu
    · obtain ⟨y, hy, hyx⟩ := compatible.uniform hreach hvertex hu hx
      exact hyx ▸ hpainted hvertex (Or.inl rfl) hy
    · obtain ⟨d, hd, hdu⟩ := List.mem_map.1 hu
      obtain ⟨y, hy, hyx⟩ := compatible.uniform hreach (hreached hd) hdu.symm hx
      exact hyx ▸ hpainted (hreached hd) (Or.inr hd) hy
    · exact Or.inr (h.red_next hreach hu hx)
  have houtside : ¬ inside (key vertex) := by
    rintro (hin | hin)
    · obtain ⟨d, hd, hdv⟩ := List.mem_map.1 hin
      have hblue := reddened.blue d hd
      rw [hdv, hcyan] at hblue
      cases hblue
    · rw [hcyan] at hin
      cases hin
  have hred : ∀ {k}, palette'.color? k = some .red ↔ k = key vertex ∨ inside k := by
    intro k
    rw [reddened.color?_eq]
    split
    · next hk =>
      rw [List.mem_cons] at hk
      exact ⟨fun _ => hk.imp id Or.inl, fun _ => rfl⟩
    · next hk =>
      rw [List.mem_cons, not_or] at hk
      exact ⟨fun hin => Or.inr (Or.inr hin), fun hin => (hin.resolve_left hk.1).resolve_left hk.2⟩
  have hblue : ∀ {k}, palette'.color? k = some .blue → palette.color? k = some .blue := by
    intro k hk
    rw [reddened.color?_eq] at hk
    split at hk
    · cases hk
    · exact hk
  refine ⟨?_, ?_, ?_, ?_⟩
  · intro k
    rw [← h.white_iff, reddened.color?_eq]
    split
    · next hk =>
      rcases List.mem_cons.1 hk with rfl | hk
      · simp [hcyan]
      · obtain ⟨d, hd, rfl⟩ := List.mem_map.1 hk
        simp [reddened.blue d hd]
    · rfl
  · intro u x hreach hu hx
    exact hred.2 (Or.inr (hnext hreach (hred.1 hu) hx))
  · intro u hreach hu haccepting
    rcases hred.1 hu with hk | hin | hin
    · -- whatever is reached from `u` is inside, and `vertex` is not
      rintro ⟨w, huw, hw⟩
      have hinside : inside (key w) := by
        clear hw
        induction huw with
        | single hedge => exact hnext hreach (Or.inl hk) hedge
        | tail hpath hedge ih => exact hnext (hreach.trans hpath.to_reflTransGen) (Or.inr ih) hedge
      rw [hw, hk] at hinside
      exact houtside hinside
    · obtain ⟨d, hd, hdu⟩ := List.mem_map.1 hin
      have hplain := h.blue_plain hreach (hdu ▸ reddened.blue d hd)
      rw [haccepting] at hplain
      cases hplain
    · exact h.red_vain hreach hin haccepting
  · intro u hreach hu
    exact h.blue_plain hreach (hblue hu)

/-- A form whose vertex the outer search has left leads to coloured forms only. -/
theorem colored_of_left {log : List (Event V)} {search : DepthSearch V (Std.HashSet K)}
    (h : Shaded graph key accepting (discoveries log) palette)
    (explores : Explores graph key (fresh graph (∅ : Std.HashSet K) none) log search)
    (compatible : graph.Compatible key accepting) {d u x : V} (hd : d ∈ discoveries log)
    (left : d ∉ search.path) (hdu : key d = key u) (hreach : graph.Reachable u)
    (hx : x ∈ graph.after (some u)) : palette.color? (key x) ≠ none := by
  obtain ⟨y, hy, hyx⟩ := compatible.uniform hreach (explores.reachable hd) hdu.symm hx
  rw [Ne, h.white_iff, not_not, ← hyx]
  rcases explores.closed_of_left (HashSet.faithful ∅) hd left hy with hknown | hfound
  · rw [HashSet.knows_empty] at hknown
    cases hknown
  · exact hfound

/-- A blue form leads to coloured forms only, because its vertex is not on the stack. -/
theorem colored_of_blue {log : List (Event V)} {search : DepthSearch V (Std.HashSet K)}
    (h : Shaded graph key accepting (discoveries log) palette)
    (explores : Explores graph key (fresh graph (∅ : Std.HashSet K) none) log search)
    (compatible : graph.Compatible key accepting)
    (cyan : ∀ v ∈ search.path, palette.color? (key v) = some .cyan) {u x : V}
    (hreach : graph.Reachable u) (hblue : palette.color? (key u) = some .blue)
    (hx : x ∈ graph.after (some u)) : palette.color? (key x) ≠ none := by
  have hcolored : key u ∈ (discoveries log).map key := by
    by_contra hwhite
    rw [(h.white_iff _).2 hwhite] at hblue
    cases hblue
  obtain ⟨d, hd, hdu⟩ := List.mem_map.1 hcolored
  refine h.colored_of_left explores compatible hd ?_ hdu hreach hx
  intro hmem
  have hcyan := cyan d hmem
  rw [hdu, hblue] at hcyan
  cases hcyan

end Shaded

/-! ## The outer search -/

/-- What holds while the outer search goes on. -/
structure Underway (graph : StateGraph Id V) (key : V → K) (accepting : V → Bool)
    (log : List (Event V)) (search : DepthSearch V (Std.HashSet K)) (blue : BlueState V K) :
    Prop where
  clean : blue.findings.Clean
  tinted : Tinted key accepting search.path blue.palette
  shaded : graph.Compatible key accepting →
    Shaded graph key accepting (discoveries log) blue.palette

namespace Underway

variable {accepting : V → Bool} {log : List (Event V)} {search : DepthSearch V (Std.HashSet K)}
  {blue : BlueState V K} {top : Frame V} {rest : List (Frame V)} {target vertex : V}

omit [LawfulBEq K] [LawfulHashable K] in
/-- An early end of the outer search shows a lasso. -/
theorem isLasso_of_revisit (h : Underway graph key accepting log search blue)
    (explores : Explores graph key (fresh graph (∅ : Std.HashSet K) none) log search)
    (items : search.stack.items = top :: rest) (htarget : target ∈ graph.after top.vertex) {u : V}
    (hu : top.vertex = some u) (hcyan : blue.palette.color? (key target) = some .cyan)
    (hcloses : accepting target = true ∨
      blue.palette.weight (key target) < blue.palette.weight (key u)) :
    IsLasso graph key accepting (.edge u target) (search.path ++ [target]) := by
  have hlast := explores.grounded.getLast?_path items
  rw [hu] at hlast
  have hwalk := explores.grounded.walk_concat items htarget
  rw [← List.append_nil search.path] at hlast hwalk ⊢
  refine h.tinted.isLasso hwalk hcyan hlast ?_
  intro stem entry loop hpath hkey
  rw [List.append_nil] at hlast ⊢
  rcases hcloses with haccepting | hless
  · exact ⟨target, by simp, haccepting⟩
  · -- the weights differ, so an accepting vertex lies behind `entry`
    have hcount : (stem ++ entry :: loop).countP accepting =
        (stem ++ [entry]).countP accepting + loop.countP accepting := by
      rw [List.append_cons, List.countP_append]
    rw [← hkey, h.tinted.weight_eq stem entry loop hpath, h.tinted.weight_getLast? hlast, hpath,
      hcount, Nat.lt_add_right_iff_pos, List.countP_pos_iff] at hless
    obtain ⟨v, hv, haccepting⟩ := hless
    exact ⟨v, by simp [hv], haccepting⟩

omit [LawfulBEq K] [LawfulHashable K] in
/-- A way from an accepting vertex to a cyan form shows a lasso. -/
theorem isLasso_of_leave (h : Underway graph key accepting log search blue)
    (explores : Explores graph key (fresh graph (∅ : Std.HashSet K) none) log search)
    (hpath : search.path = search.pop.path ++ [vertex]) (haccepting : accepting vertex = true)
    {inner : List V} (hcyan : blue.palette.color? (key target) = some .cyan)
    (hwalk : graph.Walk (some vertex) (inner ++ [target])) :
    IsLasso graph key accepting (.edge (inner.getLast?.getD vertex) target)
      (search.pop.path ++ [vertex] ++ inner ++ [target]) := by
  have hlast : search.path.getLast? = some vertex := by
    rw [hpath, List.getLast?_concat]
  rw [← hpath]
  refine h.tinted.isLasso ?_ hcyan ?_ ?_
  · rw [List.append_assoc, StateGraph.walk_append, hlast]
    exact ⟨explores.grounded.walk, hwalk⟩
  · rw [List.getLast?_append, hlast]
    cases inner.getLast? <;> rfl
  · -- `vertex` is the last one on the stack, so it lies on the loop
    intro stem entry loop hsplit hkey
    rw [hsplit, List.getLast?_append, List.getLast?_cons, Option.some_or] at hlast
    have hmem : vertex ∈ entry :: loop := List.mem_of_getLast? (by rw [List.getLast?_cons, hlast])
    refine ⟨vertex, ?_, haccepting⟩
    rw [← List.cons_append, List.append_assoc]
    exact List.mem_append_left _ hmem

/-- A vertex that the outer search is about to leave, and every blue form, leads to coloured forms
only. -/
theorem colored_next (h : Underway graph key accepting log search blue)
    (explores : Explores graph key (fresh graph (∅ : Std.HashSet K) none) log search)
    (items : search.stack.items = top :: rest) (offer : search.offer top = none)
    (hv : top.vertex = some vertex) (compatible : graph.Compatible key accepting) {u x : V}
    (hreach : graph.Reachable u) (hu : u = vertex ∨ blue.palette.color? (key u) = some .blue)
    (hx : x ∈ graph.after (some u)) : blue.palette.color? (key x) ≠ none := by
  have hpath : search.path = search.pop.path ++ [vertex] := by
    rw [path_of_items items, hv, Option.toList_some]
  -- the vertex is taken from the stack before the colours change
  have explores' := explores.step (.leave items offer hv)
  have hshaded : Shaded graph key accepting (discoveries (log ++ [.exit vertex top]))
      blue.palette := by
    rw [discoveries_exit]
    exact h.shaded compatible
  rcases hu with rfl | hblue
  · have hnodup := explores.nodup_path (HashSet.faithful ∅)
    rw [hpath, List.map_append, List.nodup_append] at hnodup
    refine hshaded.colored_of_left explores' compatible ?_ ?_ rfl hreach hx
    · rw [discoveries_exit]
      exact explores.path_sublist.subset (by simp [hpath])
    · intro hmem
      exact hnodup.2.2 _ (List.mem_map_of_mem hmem) _ (List.mem_singleton_self _) rfl
  · refine hshaded.colored_of_blue explores' compatible ?_ hreach hblue hx
    intro v hmem
    exact (h.tinted.cyan_iff (key v)).2 (List.mem_map_of_mem (by simp [hpath, hmem]))

/-- When the outer search is over, no accepting vertex recurs. -/
theorem vain_of_over (h : Underway graph key accepting log search blue)
    (explores : Explores graph key (fresh graph (∅ : Std.HashSet K) none) log search)
    (ended : search.stack.items = []) (compatible : graph.Compatible key accepting) {v : V}
    (hv : graph.Reachable v) (haccepting : accepting v = true) : ¬ graph.Recurs key v := by
  have hshaded := h.shaded compatible
  have hfound :=
    explores.key_mem_of_over (HashSet.faithful ∅) HashSet.knows_empty compatible.uniform
    ended hv
  cases hcolor : blue.palette.color? (key v) with
  | none => exact absurd hfound ((hshaded.white_iff _).1 hcolor)
  | some color =>
    cases color with
    | cyan =>
      have hmem := (h.tinted.cyan_iff _).1 hcolor
      rw [path, ended] at hmem
      cases hmem
    | blue =>
      rw [hshaded.blue_plain hv hcolor] at haccepting
      cases haccepting
    | red => exact hshaded.red_vain hv hcolor haccepting

end Underway

variable [LawfulMonad m] [Journal m] [Render V] {accepting : V → Bool} {poll : m Bool} {fuel : Nat}
  {early : Bool}

section Calls

variable {search : DepthSearch V (Std.HashSet K)} {blue blue' : BlueState V K} {target : V}
  {signal : Signal}

omit [LawfulBEq K] [LawfulHashable K] [LawfulMonad m] in
theorem blueVisitor_enter_returns {source : Option V}
    (told : Returns ((blueVisitor fuel poll (graph.under key) (fun v => pure (accepting v))
      early).enter source target search blue) (signal, blue')) :
    signal = .proceed ∧ blue' = { blue with
      palette := blue.palette.enter (key target)
        ((source.elim 0 fun source => blue.palette.weight (key source)) +
          if accepting target then 1 else 0) } := by
  cases source with
  | none =>
    have told := Returning.of_pure_bind told
    have told := Returning.of_pure_bind told
    have told := Returning.of_pure_bind told
    cases Returning.of_pure told
    exact ⟨rfl, rfl⟩
  | some source =>
    have told := Returning.of_pure_bind told
    have told := Returning.of_pure_bind told
    have told := Returning.of_pure_bind told
    have told := Returning.of_pure_bind told
    cases Returning.of_pure told
    exact ⟨rfl, rfl⟩

omit [LawfulBEq K] [LawfulHashable K] [LawfulMonad m] [Journal m] [Render V] in
theorem closesCycle_returns {palette : Palette K} {source : V} {targetKey : K}
    (h : Returns
      (closesCycle (m := m) (graph.under key) (fun v => pure (accepting v)) palette source
      target targetKey) true) :
    accepting target = true ∨ palette.weight targetKey < palette.weight (key source) := by
  have h := Returning.of_pure_bind h
  split at h
  · next haccepting => exact Or.inl haccepting
  · have h := Returning.of_pure_bind h
    exact Or.inr (of_decide_eq_true (Returning.of_pure h).symm)

omit [LawfulBEq K] [LawfulHashable K] [LawfulMonad m] in
/-- On an edge to a known form the outer search goes on with nothing changed, or it stops at an edge
to a cyan form. -/
theorem blueVisitor_revisit_returns {source : Option V}
    (told : Returns ((blueVisitor fuel poll (graph.under key) (fun v => pure (accepting v))
      early).revisit source target search blue) (signal, blue')) :
    (signal = .proceed ∧ blue' = blue) ∨
      (signal = .abort ∧ ∃ u, source = some u ∧ blue.palette.color? (key target) = some .cyan ∧
        (accepting target = true ∨ blue.palette.weight (key target) < blue.palette.weight (key u)) ∧
        blue'.findings.cancelled = blue.findings.cancelled ∧
        blue'.findings.answer = .violated (.edge u target) (search.path ++ [target])) := by
  cases early with
  | false =>
    cases Returning.of_pure told
    exact Or.inl ⟨rfl, rfl⟩
  | true =>
    cases source with
    | none =>
      cases Returning.of_pure told
      exact Or.inl ⟨rfl, rfl⟩
    | some u =>
      have told := Returning.of_pure_bind told
      split at told
      · cases Returning.of_pure told
        exact Or.inl ⟨rfl, rfl⟩
      · next hcyan =>
        obtain ⟨closes, hcloses, told⟩ := Returning.of_bind told
        cases closes with
        | false =>
          cases Returning.of_pure told
          exact Or.inl ⟨rfl, rfl⟩
        | true =>
          cases Returning.of_pure (Returning.of_seq told)
          exact Or.inr ⟨rfl, u, rfl, by simpa using hcyan, closesCycle_returns hcloses, rfl, rfl⟩

end Calls

theorem blueVisitor_upholds :
    Upholds graph key (fresh graph (∅ : Std.HashSet K) none)
      (blueVisitor fuel poll (graph.under key) (fun v => pure (accepting v)) early)
      (Underway graph key accepting)
      (fun _ blue => blue.findings.Decided graph key accepting poll) where
  enter := by
    intro log search blue top rest target signal blue' explores inv items offer new told
    have hundiscovered : key target ∉ (discoveries log).map key := by
      intro hmem
      rw [(explores.knows_iff (HashSet.faithful ∅) _).2 (Or.inr hmem)] at new
      cases new
    obtain ⟨rfl, rfl⟩ := blueVisitor_enter_returns told
    refine ⟨inv.clean, ?_, fun compatible => ?_⟩
    · rw [path_pushed, path_learn, path_advance, ← explores.grounded.getLast?_path items,
        inv.tinted.weight_below]
      exact inv.tinted.enter fun hmem => hundiscovered ((explores.path_sublist.map key).subset hmem)
    · rw [discoveries_entry]
      exact (inv.shaded compatible).enter hundiscovered _
  revisit := by
    intro log search blue top rest target signal blue' explores inv items offer old told
    rcases blueVisitor_revisit_returns told with
      ⟨rfl, rfl⟩ | ⟨rfl, u, hu, hcyan, hcloses, hcancelled, hanswer⟩
    · refine ⟨inv.clean, ?_, ?_⟩
      · rw [path_advance]
        exact inv.tinted
      · rw [discoveries_known]
        exact inv.shaded
    · refine Or.inr ⟨hcancelled.trans inv.clean.2, _, _, hanswer, ?_⟩
      rw [path_advance]
      exact inv.isLasso_of_revisit explores items (explores.target_mem items offer) hu hcyan hcloses
  leave := by
    intro log search blue top rest vertex signal blue' explores inv items offer hv told
    have hpath : search.path = search.pop.path ++ [vertex] := by
      rw [path_of_items items, hv, Option.toList_some]
    have hnodup := explores.nodup_path (HashSet.faithful ∅)
    have hreach : graph.Reachable vertex := explores.top_reachable items hv
    have tinted := inv.tinted
    rw [hpath] at hnodup tinted
    have hcyan : blue.palette.color? (key vertex) = some .cyan := by
      rw [tinted.cyan_iff]
      simp
    have told := Returning.of_pure_bind told
    split at told
    · next haccepting =>
      obtain ⟨stop, hpoll, told⟩ := Returning.of_bind told
      cases stop with
      | true =>
        cases Returning.of_pure told
        exact Or.inl ⟨rfl, hpoll⟩
      | false =>
        have hred := redSearch_returns told
        cases signal with
        | abort =>
          rcases hred with hcancelled | ⟨hcancelled, inner, target, htarget, hwalk, hanswer⟩
          · exact Or.inl hcancelled
          · exact Or.inr ⟨hcancelled.trans inv.clean.2, _, _, hanswer,
              inv.isLasso_of_leave explores hpath haccepting htarget hwalk⟩
        | proceed =>
          obtain ⟨⟨painted, reddened⟩, hanswer, hcancelled⟩ := hred
          refine ⟨⟨hanswer.trans inv.clean.1, hcancelled.trans inv.clean.2⟩,
            tinted.leave_accepting reddened hnodup, fun compatible => ?_⟩
          rw [discoveries_exit]
          exact (inv.shaded compatible).leave_accepting compatible hreach hcyan reddened
            (inv.colored_next explores items offer hv compatible)
    · next haccepting =>
      have told := Returning.of_pure_bind told
      cases Returning.of_pure told
      refine ⟨inv.clean, tinted.leave_plain hnodup, fun compatible => ?_⟩
      rw [discoveries_exit]
      exact (inv.shaded compatible).leave_plain compatible hreach hcyan
        (Bool.eq_false_iff.2 haccepting)
  finish := by
    intro log search blue top rest explores inv items offer hv
    have hpath := path_of_items items
    rw [hv, Option.toList_none, List.append_nil] at hpath
    exact ⟨inv.clean, hpath ▸ inv.tinted, inv.shaded⟩

omit [LawfulBEq K] [LawfulHashable K] [Render V] in
theorem underway_first (graph : StateGraph Id V) (key : V → K) (accepting : V → Bool) :
    Underway graph key accepting [] (fresh graph (∅ : Std.HashSet K) none) {} :=
  ⟨⟨rfl, rfl⟩, ⟨by simp [Palette.color?], by simp⟩, fun _ =>
    ⟨by simp [Palette.color?, discoveries], by simp [Palette.color?], by simp [Palette.color?],
      by simp [Palette.color?]⟩⟩

/-- The check answers with a lasso, or no accepting vertex recurs. -/
theorem colored_verdict {answer : Answer V}
    (h : Returns (colored fuel poll (graph.under key) (fun v => pure (accepting v)) early) answer) :
    Verdict graph key accepting poll
      (graph.Compatible key accepting →
        ∀ v, accepting v = true → graph.Reachable v → ¬ graph.Recurs key v) answer := by
  obtain ⟨outcome, t, hanswer, hend⟩ :=
    blueVisitor_upholds.start_run (underway_first graph key accepting) h
  rw [Returning.of_pure (Returning.of_seq hanswer)]
  refine verdict_of_outcome (hend.imp ?_ id ?_)
  · rintro ⟨hover, log, hexplores, inv⟩
    exact ⟨inv.clean, fun compatible v haccepting hv =>
      inv.vain_of_over hexplores hover compatible hv haccepting⟩
  · rintro ⟨hpoll, log, -, inv⟩
    exact ⟨hpoll, inv.clean⟩

end StateExplorer.NestedSearch
