import StateExplorer.Proofs.Nested.Record

/-!
# The colours over a whole check

Every moment on the record of a check with colours is lawful after those before it
(`Moment.Lawful`). No more is needed for this than that each write to the palette is a lawful change
of colours (`Palette.Turns`), since a red form stays red.
-/

namespace StateExplorer.NestedSearch

open DepthSearch Event

variable {V K ω : Type} [BEq K] [Hashable K]

/-! ## Lawful records -/

/-- From white to cyan, from cyan to blue or red, or from blue to red. -/
def Color.Turns : Option Color → Option Color → Prop
  | none, after => after = some .cyan
  | some .cyan, after => after = some .blue ∨ after = some .red
  | some .blue, after => after = some .red
  | some .red, _ => False

/-- Each form keeps its colour or changes it in one of these ways. -/
def Palette.Turns (before after : Palette K) : Prop :=
  ∀ k, after.color? k = before.color? k ∨ Color.Turns (before.color? k) (after.color? k)

/-- What has to hold of a moment after those before it: the colours have changed lawfully, the cyan
forms and their weights are those of the stack of the outer search, and what an inner search enters
is blue and has not been entered by any of them. -/
def Moment.Lawful (key : V → K) (accepting : V → Bool) (before : List (Moment V K)) :
    Moment V K → Prop
  | outer path palette => (latest before).Turns palette ∧ Tinted key accepting path palette
  | between palette => (latest before).Turns palette
  | entry form => (latest before).color? form = some .blue ∧ form ∉ entries before

/-- Each moment is lawful after those before it. -/
def LawfulRecord (key : V → K) (accepting : V → Bool) (record : List (Moment V K)) : Prop :=
  ∀ before moment after, record = before ++ moment :: after → moment.Lawful key accepting before

/-! ## Lawful changes -/

namespace Palette

variable {palette before after : Palette K} {k : K}

/-- A cyan form has turned blue or red. The others are white or cyan if they were so before, and no
weight has changed. -/
structure Finishes (k : K) (before after : Palette K) : Prop where
  cyan_iff : ∀ other, after.color? other = some .cyan ↔ other ≠ k ∧ before.color? other = some .cyan
  white_iff : ∀ other, after.color? other = none ↔ before.color? other = none
  weight_eq : ∀ other, after.weight other = before.weight other

theorem Turns.refl (palette : Palette K) : palette.Turns palette := fun _ => Or.inl rfl

/-- Red is final. -/
theorem Turns.red (h : before.Turns after) (hk : before.color? k = some .red) :
    after.color? k = some .red := by
  rcases h k with hsame | hturn
  · exact hsame.trans hk
  · rw [hk] at hturn
    exact hturn.elim

variable [LawfulBEq K] [LawfulHashable K]

theorem turns_enter (hwhite : palette.color? k = none) (weight : Nat) :
    palette.Turns (palette.enter k weight) := by
  intro other
  by_cases hother : other = k
  · rw [hother, color?_enter_self, hwhite]
    exact Or.inr rfl
  · exact Or.inl (color?_enter_of_ne palette weight hother)

theorem turns_paint {color : Color} (hturn : Color.Turns (palette.color? k) (some color)) :
    palette.Turns (palette.paint k color) := by
  intro other
  by_cases hother : other = k
  · subst hother
    have hcolor : (palette.paint other color).color? other = some color := by
      rw [color?_paint_self, if_neg]
      intro hred
      rw [hred] at hturn
      exact hturn
    rw [hcolor]
    exact Or.inr hturn
  · exact Or.inl (color?_paint_of_ne palette color hother)

theorem finishes_paint {color : Color} (hcyan : palette.color? k = some .cyan)
    (hcolor : color ≠ .cyan) :
    Finishes k palette (palette.paint k color) := by
  have hself : (palette.paint k color).color? k = some color := by
    rw [color?_paint_self, hcyan]
    rfl
  refine ⟨fun other => ?_, fun other => ?_, fun other => weight_paint ..⟩
  · by_cases hother : other = k
    · simp [hother, hself, hcolor]
    · simp [color?_paint_of_ne _ _ hother, hother]
  · by_cases hother : other = k
    · simp [hother, hself, hcyan]
    · rw [color?_paint_of_ne _ _ hother]

end Palette

/-! ## What has been kept -/

/-- The record is lawful, the colours have changed lawfully since the last moment, and what the
inner searches have entered is red. -/
structure Kept (key : V → K) (accepting : V → Bool) (record : List (Moment V K))
    (palette : Palette K) :
    Prop where
  lawful : LawfulRecord key accepting record
  turns : (Moment.latest record).Turns palette
  red : ∀ k ∈ Moment.entries record, palette.color? k = some .red

section Kept

variable {key : V → K} {accepting : V → Bool} {record : List (Moment V K)}
  {palette palette' : Palette K}

theorem LawfulRecord.concat (h : LawfulRecord key accepting record) {moment : Moment V K}
    (last : moment.Lawful key accepting record) : LawfulRecord key accepting (record ++ [moment]) :=
  forall_split_concat h last

theorem Moment.latest_concat {moment : Moment V K} (h : moment.palette? = some palette) :
    latest (record ++ [moment]) = palette := by
  simp [latest, h]

namespace Kept

theorem nil : Kept key accepting [] ({} : Palette K) := by
  refine ⟨?_, Palette.Turns.refl _, by simp [Moment.entries]⟩
  intro before moment after h
  simp at h

/-- Colours can be written down at any time. -/
theorem note (h : Kept key accepting record palette) {moment : Moment V K}
    (hpalette : moment.palette? = some palette) (hentry : moment.entry? = none)
    (hlawful : moment.Lawful key accepting record) :
    Kept key accepting (record ++ [moment]) palette where
  lawful := h.lawful.concat hlawful
  turns := by
    rw [Moment.latest_concat hpalette]
    exact .refl palette
  red := by
    simpa [Moment.entries, hentry] using h.red

theorem between (h : Kept key accepting record palette) :
    Kept key accepting (record ++ [.between palette]) palette := h.note rfl rfl h.turns

theorem outer (h : Kept key accepting record palette) {path : List V}
    (htinted : Tinted key accepting path palette) :
    Kept key accepting (record ++ [.outer path palette]) palette :=
      h.note rfl rfl ⟨h.turns, htinted⟩

/-- The colours can change lawfully once they have been written down. -/
theorem change (h : Kept key accepting record palette) (hlatest : Moment.latest record = palette)
    (hturns : palette.Turns palette') : Kept key accepting record palette' where
  lawful := h.lawful
  turns := hlatest ▸ hturns
  red k hk := hturns.red (h.red k hk)

/-- An inner search can enter a blue form, which turns red. -/
theorem entry [LawfulBEq K] [LawfulHashable K] (h : Kept key accepting record palette)
    (hlatest : Moment.latest record = palette) {form : K}
    (hblue : palette.color? form = some .blue) :
    Kept key accepting (record ++ [.entry form]) (palette.paint form .red) := by
  have hnew : form ∉ Moment.entries record := by
    intro hmem
    rw [h.red form hmem] at hblue
    cases hblue
  have hturns : palette.Turns (palette.paint form .red) := by
    apply Palette.turns_paint
    rw [hblue]
    rfl
  have hlatest' : Moment.latest (record ++ [.entry form]) = palette := by
    simpa [Moment.latest, Moment.palette?] using hlatest
  refine ⟨h.lawful.concat ⟨hlatest ▸ hblue, hnew⟩, hlatest' ▸ hturns, ?_⟩
  intro k hk
  rw [Moment.entries, List.filterMap_append, List.mem_append] at hk
  rcases hk with hk | hk
  · exact hturns.red (h.red k hk)
  · obtain rfl : k = form := by simpa [Moment.entry?] using hk
    rw [Palette.color?_paint_self, hblue]
    rfl

end Kept

end Kept

/-! ## Inner searches -/

section Searches

variable [LawfulBEq K] [LawfulHashable K] [Render V] {graph : StateGraph Id V} {key : V → K}
  {accepting : V → Bool} {fuel : Nat} {poll : ExceptT Fault (StateM ω) Bool}

omit [Render V] in
theorem redVisitor_recorded (graph : StateGraph Id V) (key : V → K) (accepting : V → Bool)
    (palette : Palette K) (seed : V) :
    RecordedSearch (ω := ω) graph key (fresh graph ({ palette } : RedStore K) none)
      (LawfulRecord key accepting) (recordedRedVisitor (graph.under key) seed)
      (redVisitor (graph.under key) seed) (fun t => .between t.search.known.palette)
      (fun _ search _ record => Kept key accepting record search.known.palette)
      (fun search closing record => closing ≠ none ∧
        Kept key accepting record search.known.palette) where
  sound h := h.lawful
  begin h := h.between
  enter := by
    intro log search closing top rest target explores items offer new
    have hblue : search.known.palette.color? (key target) = some .blue := by
      by_contra hother
      rw [(RedStore.knows_iff _ _).2 hother] at new
      cases new
    refine Recorded.writeDown (.pure (a := (Signal.proceed, closing)) fun record
      (h : Kept key accepting record (search.known.palette.paint (key target) .red)) => h) ?_
    intro record hrecord
    obtain ⟨before, rfl, hkept⟩ := hrecord
    exact hkept.between.entry (Moment.latest_concat rfl) hblue
  revisit := by
    intro log search closing top rest target explores items offer old
    refine .of_pure (redVisitor_revisit_eq ..) (redVisitor_revisit_eq ..) fun record hrecord => ?_
    obtain ⟨before, rfl, hkept⟩ := hrecord
    split
    · exact ⟨by simp, hkept.between⟩
    · exact hkept.between
  leave := by
    intro log search closing top rest vertex explores items offer hv
    refine .pure fun record hrecord => ?_
    obtain ⟨before, rfl, hkept⟩ := hrecord
    exact hkept.between
  finish _ _ _ _ h := h

omit [Render V] in
/-- An inner search turns blue forms red and no others, so with its seed painted only the seed is no
longer cyan. -/
theorem finishes_of_explores {palette : Palette K} {seed : V} {log : List (Event V)}
    {search : DepthSearch V (RedStore K)}
    (h : Explores graph key (fresh graph ({ palette } : RedStore K) none) log search)
    (hseed : palette.color? (key seed) = some .cyan) :
    Palette.Finishes (key seed) palette (search.known.palette.paint (key seed) .red) := by
  have hcyan := cyan_iff_of_explores h
  have hpaint := Palette.finishes_paint ((hcyan (key seed)).2 hseed) (by decide : Color.red ≠ .cyan)
  refine ⟨fun k => ?_, fun k => ?_, fun k => ?_⟩
  · rw [hpaint.cyan_iff, hcyan]
  · rw [hpaint.white_iff, h.known_eq, RedStore.color?_learnAll]
    by_cases hfound : k ∈ (discoveries log).map key
    · obtain ⟨v, hv, rfl⟩ := List.mem_map.1 hfound
      simp [hfound, blue_of_discovered h hv]
    · simp [hfound]
  · rw [hpaint.weight_eq, h.known_eq, RedStore.weight_learnAll]

/-- An inner search from a cyan form keeps the record, and is done with this form if it lets the
outer search go on. -/
theorem redSearch_recorded {seed : V} {path : List V} {blue : BlueState V K}
    (hseed : blue.palette.color? (key seed) = some .cyan) :
    Recorded (LawfulRecord key accepting)
      (fun record => Kept key accepting record blue.palette)
      (recordedRedSearch fuel poll (graph.under key) seed path blue)
      (redSearch fuel poll (graph.under key) seed path blue)
      fun answer record => Kept key accepting record answer.2.palette ∧
        (answer.1 = .proceed → Palette.Finishes (key seed) blue.palette answer.2.palette) := by
  rw [redSearch_eq]
  unfold recordedRedSearch
  refine .of_pure_bind (start_redSearch seed _) (start_redSearch seed _) ?_
  have hrun :=
    (redVisitor_recorded (graph.rootedAfter seed) key accepting blue.palette seed).run poll fuel
    { search := fresh (graph.rootedAfter seed) ({ palette := blue.palette } : RedStore K) none
      state := none }
  refine Recorded.bind (hrun.imp (fun record hkept => ⟨[], .refl, hkept⟩) fun _ _ h => h)
    fun result => ?_
  obtain ⟨outcome, search, closing⟩ := result
  unfold concludeRed
  simp only [Journal.trace_eq, Journal.debug_eq, pure_bind, StateGraph.under]
  cases outcome with
  | exhausted =>
    refine Recorded.of_exists fun log explores => ?_
    have hcyan := (cyan_iff_of_explores explores (key seed)).2 hseed
    have hturns : search.known.palette.Turns (search.known.palette.paint (key seed) .red) := by
      apply Palette.turns_paint
      rw [hcyan]
      exact Or.inr rfl
    exact Recorded.writeDown (.pure fun record (hkept : Kept key accepting record
      (search.known.palette.paint (key seed) .red)) =>
        ⟨hkept, fun _ => finishes_of_explores explores hseed⟩)
      fun record hkept => hkept.between.change (Moment.latest_concat rfl) hturns
  | aborted =>
    cases closing with
    | none => exact fun world record hstop => absurd rfl hstop.1
    | some edge =>
      exact Recorded.writeDown
        (.pure fun record (hkept : Kept key accepting record search.known.palette) =>
        ⟨hkept, fun h => by cases h⟩) fun record hstop => hstop.2.between
  | cancelled =>
    refine Recorded.of_exists fun log explores => ?_
    exact Recorded.writeDown
      (.pure fun record (hkept : Kept key accepting record search.known.palette) =>
      ⟨hkept, fun h => by cases h⟩) fun record hkept => hkept.between

/-! ## The outer search -/

/-- What holds between the steps of the outer search. -/
structure Painted (key : V → K) (accepting : V → Bool) (log : List (Event V))
    (search : DepthSearch V (Std.HashSet K)) (blue : BlueState V K) (record : List (Moment V K)) :
    Prop where
  kept : Kept key accepting record blue.palette
  tinted : Tinted key accepting search.path blue.palette
  white_iff : ∀ k, blue.palette.color? k = none ↔ k ∉ (discoveries log).map key

namespace Painted

variable {log : List (Event V)} {search : DepthSearch V (Std.HashSet K)}
  {blue blue' : BlueState V K} {record record' : List (Moment V K)} {top : Frame V}
  {rest : List (Frame V)} {target vertex : V}

omit [LawfulBEq K] [LawfulHashable K] [Render V] in
theorem outer (painted : Painted key accepting log search blue record) :
    Painted key accepting log search blue (record ++ [.outer search.path blue.palette]) :=
  ⟨painted.kept.outer painted.tinted, painted.tinted, painted.white_iff⟩

omit [Render V] in
theorem enter (painted : Painted key accepting log search blue record)
    (explores : Explores graph key (fresh graph (∅ : Std.HashSet K) none) log search)
    (items : search.stack.items = top :: rest) (new : Store.knows search.known (key target) = false)
    (hlatest : Moment.latest record = blue.palette) :
    Painted key accepting (log ++ [.entry top.vertex target])
      ((search.advance.learn (key target)).pushed graph target)
      { blue with
        palette := blue.palette.enter (key target)
          ((top.vertex.elim 0 fun source => blue.palette.weight (key source)) +
            if accepting target then 1 else 0) }
      record := by
  have hnew : key target ∉ (discoveries log).map key := by
    intro hmem
    rw [(explores.knows_iff (HashSet.faithful ∅) _).2 (Or.inr hmem)] at new
    cases new
  have hwhite := (painted.white_iff (key target)).2 hnew
  refine ⟨painted.kept.change hlatest (Palette.turns_enter hwhite _), ?_, fun k => ?_⟩
  · rw [path_pushed, path_learn, path_advance, ← explores.grounded.getLast?_path items,
      painted.tinted.weight_below]
    exact painted.tinted.enter fun hmem => hnew ((explores.path_sublist.map key).subset hmem)
  · rw [discoveries_entry, List.map_append, List.mem_append, List.map_singleton, List.mem_singleton]
    by_cases hk : k = key target
    · simp [hk, Palette.color?_enter_self]
    · rw [Palette.color?_enter_of_ne _ _ hk, painted.white_iff]
      simp [hk]

omit [LawfulBEq K] [LawfulHashable K] [Render V] in
theorem revisit (painted : Painted key accepting log search blue record)
    (hpalette : blue'.palette = blue.palette) :
    Painted key accepting (log ++ [.known top.vertex target]) search.advance blue' record := by
  refine ⟨hpalette ▸ painted.kept, ?_, ?_⟩
  · rw [path_advance, hpalette]
    exact painted.tinted
  · rw [discoveries_known, hpalette]
    exact painted.white_iff

omit [LawfulBEq K] [LawfulHashable K] [Render V] in
theorem cyan_of_items (painted : Painted key accepting log search blue record)
    (items : search.stack.items = top :: rest) (hv : top.vertex = some vertex) :
    blue.palette.color? (key vertex) = some .cyan := by
  rw [painted.tinted.cyan_iff, path_of_items items, hv]
  simp

omit [Render V] in
theorem leave (painted : Painted key accepting log search blue record)
    (explores : Explores graph key (fresh graph (∅ : Std.HashSet K) none) log search)
    (items : search.stack.items = top :: rest) (hv : top.vertex = some vertex)
    (finishes : Palette.Finishes (key vertex) blue.palette blue'.palette)
    (kept : Kept key accepting record' blue'.palette) :
    Painted key accepting (log ++ [.exit vertex top]) search.pop blue' record' := by
  have hpath : search.path = search.pop.path ++ [vertex] := by
    rw [path_of_items items, hv, Option.toList_some]
  have tinted := painted.tinted
  have hnodup := explores.nodup_path (HashSet.faithful ∅)
  rw [hpath] at tinted hnodup
  refine ⟨kept, tinted.leave finishes.cyan_iff finishes.weight_eq hnodup, fun k => ?_⟩
  rw [finishes.white_iff, painted.white_iff, discoveries_exit]

end Painted

theorem blueVisitor_recorded (graph : StateGraph Id V) (key : V → K) (accepting : V → Bool)
    (early : Bool) (poll : ExceptT Fault (StateM ω) Bool) (fuel : Nat) :
    RecordedSearch graph key (fresh graph (∅ : Std.HashSet K) none) (LawfulRecord key accepting)
      (recordedBlueVisitor fuel poll (graph.under key) (fun v => pure (accepting v)) early)
      (blueVisitor fuel poll (graph.under key) (fun v => pure (accepting v)) early)
      (fun t => .outer t.search.path t.state.palette) (Painted key accepting)
      (fun _ blue record => Kept key accepting record blue.palette) where
  sound h := h.kept.lawful
  begin h := h.outer
  enter := by
    intro log search blue top rest target explores items offer new
    rw [recordedBlueVisitor_enter, blueVisitor_enter_eq, blueVisitor_enter_eq]
    refine .pure fun record hrecord => ?_
    obtain ⟨before, rfl, painted⟩ := hrecord
    exact painted.outer.enter explores items new (Moment.latest_concat rfl)
  revisit := by
    intro log search blue top rest target explores items offer old
    rw [recordedBlueVisitor_revisit, blueVisitor_revisit_eq, blueVisitor_revisit_eq]
    refine .pure fun record hrecord => ?_
    obtain ⟨before, rfl, painted⟩ := hrecord
    rcases metAgain_cases key accepting early top.vertex target search.advance.path blue with
      hmet | ⟨findings, hmet⟩
    · rw [hmet]
      exact painted.outer.revisit rfl
    · rw [hmet]
      exact painted.outer.kept
  leave := by
    intro log search blue top rest vertex explores items offer hv
    -- the colours before the call are not told by the record after it
    refine Recorded.assuming (p := ∃ before, Painted key accepting log search blue before) ?_
      fun h => ?_
    · intro record hrecord
      obtain ⟨before, -, painted⟩ := hrecord
      exact ⟨before, painted⟩
    obtain ⟨before, painted⟩ := h
    have hcyan := painted.cyan_of_items items hv
    have hkept : ∀ record, Begun (fun t => Moment.outer t.search.path t.state.palette)
        (Painted key accepting) log search blue record →
        Kept key accepting record blue.palette ∧ Moment.latest record = blue.palette := by
      intro record hrecord
      obtain ⟨before, rfl, painted⟩ := hrecord
      exact ⟨painted.outer.kept, Moment.latest_concat rfl⟩
    rw [recordedBlueVisitor_leave_eq, blueVisitor_leave_eq]
    split
    · have hpoll := (Recorded.offRecord poll fun record h => h.1.lawful).imp hkept fun _ _ h => h.1
      refine hpoll.bind fun stop => ?_
      cases stop with
      | true => exact .pure fun record h => h
      | false =>
        refine (redSearch_recorded hcyan).imp (fun _ h => h) fun answer record h => ?_
        obtain ⟨signal, blue'⟩ := answer
        cases signal with
        | abort => exact h.1
        | proceed => exact painted.leave explores items hv (h.2 rfl) h.1
    · refine .pure fun record hrecord => ?_
      obtain ⟨hkept, hlatest⟩ := hkept record hrecord
      have hturns : blue.palette.Turns (blue.palette.paint (key vertex) .blue) := by
        apply Palette.turns_paint
        rw [hcyan]
        exact Or.inl rfl
      exact painted.leave explores items hv (Palette.finishes_paint hcyan (by decide))
        (hkept.change hlatest hturns)
  finish := by
    intro log search blue top rest record explores items offer hv painted
    have hpath := path_of_items items
    rw [hv, Option.toList_none, List.append_nil] at hpath
    exact ⟨painted.kept, hpath ▸ painted.tinted, painted.white_iff⟩

omit [LawfulBEq K] [LawfulHashable K] in
/-- What holds of the record along the outer search holds of the record of the check. -/
theorem colored_recorded_of_search {early : Bool} {Sound : List (Moment V K) → Prop}
    {Inv : List (Event V) → DepthSearch V (Std.HashSet K) → BlueState V K →
      List (Moment V K) → Prop}
    {Stop : DepthSearch V (Std.HashSet K) → BlueState V K → List (Moment V K) → Prop}
    (search : RecordedSearch graph key (fresh graph (∅ : Std.HashSet K) none) Sound
      (recordedBlueVisitor fuel poll (graph.under key) (fun v => pure (accepting v)) early)
      (blueVisitor fuel poll (graph.under key) (fun v => pure (accepting v)) early)
      (fun t => .outer t.search.path t.state.palette) Inv Stop)
    (first : Inv [] (fresh graph ∅ none) {} [])
    (ended : ∀ {log search blue record}, Inv log search blue record →
      Sound (record ++ [.between blue.palette]))
    (stopped : ∀ {search blue record}, Stop search blue record →
      Sound (record ++ [.between blue.palette])) :
    Recorded Sound (fun record => record = [])
      (recordedColored fuel poll (graph.under key) (fun v => pure (accepting v)) early)
      (colored fuel poll (graph.under key) (fun v => pure (accepting v)) early) fun _ => Sound := by
  unfold recordedColored colored
  refine .of_pure_bind (start_under _ _) (start_under _ _) ?_
  have hrun := search.run poll fuel { search := fresh graph ∅ none, state := {} }
  refine Recorded.bind (hrun.imp (fun record hnil => ⟨[], .refl, ?_⟩) fun _ _ h => h)
    fun result => ?_
  · rw [hnil]
    exact first
  obtain ⟨outcome, t⟩ := result
  simp only [Journal.debug_eq, pure_bind]
  refine Recorded.writeDown (.pure fun record (h : Sound record) => h) fun record hend => ?_
  cases outcome with
  | exhausted =>
    obtain ⟨log, -, inv⟩ := hend
    exact ended inv
  | aborted => exact stopped hend
  | cancelled =>
    obtain ⟨log, -, inv⟩ := hend
    exact ended inv

/-- The check keeps the record, and answers as it does without. -/
theorem colored_recorded (graph : StateGraph Id V) (key : V → K) (accepting : V → Bool)
    (early : Bool) (poll : ExceptT Fault (StateM ω) Bool) (fuel : Nat) :
    Recorded (LawfulRecord key accepting) (fun record => record = [])
      (recordedColored fuel poll (graph.under key) (fun v => pure (accepting v)) early)
      (colored fuel poll (graph.under key) (fun v => pure (accepting v)) early)
      fun _ => LawfulRecord key accepting := by
  refine colored_recorded_of_search
    (blueVisitor_recorded graph key accepting early poll fuel) ?_ ?_ ?_
  · exact ⟨.nil, ⟨by simp [Palette.color?], by simp⟩, by simp [Palette.color?, discoveries]⟩
  · exact fun painted => painted.kept.between.lawful
  · exact fun kept => kept.between.lawful

/-- In a check with colours, whatever the graph, the canonical forms, the accepting vertices and the
polls are, and whether or not it comes to its end: at the start of each step of the outer search the
cyan forms are those on its stack, and the weight of each of them is the number of accepting
vertices up to it; from one moment to the next each form keeps its colour or changes it from white
to cyan, from cyan to blue or red, or from blue to red; what an inner search enters is blue at that
moment; and no form is entered twice by all inner searches together. The check that keeps the record
of these moments answers the same and makes the same of the world. -/
theorem colors_change_lawfully (graph : StateGraph Id V) (key : V → K) (accepting : V → Bool)
    (early : Bool) (poll : ExceptT Fault (StateM ω) Bool) (fuel : Nat) (world : ω) :
    ∃ result world' record,
      perform (recordedColored fuel poll (graph.under key) (fun v => pure (accepting v)) early)
        (world, []) = (result, world', record) ∧
      perform (colored fuel poll (graph.under key) (fun v => pure (accepting v)) early) world =
        (result, world') ∧
      LawfulRecord key accepting record := by
  obtain ⟨result, world', record, hrecorded, halone, hlawful⟩ :=
    colored_recorded graph key accepting early poll fuel world [] rfl
  refine ⟨result, world', record, hrecorded, halone, ?_⟩
  cases result with
  | error fault => exact hlawful
  | ok answer => exact hlawful

end Searches

/-- Along the ray the outer search goes down to `2` and back to `1`. The inner search from there
turns the form of `2` red and meets the one of `0`, on the stack. Three polls are left of the
budget. -/
theorem colors_change_lawfully_ray :
    let poll : ExceptT Fault (StateM StepBudget) Bool := modifyGet StepBudget.poll
    let first : Palette Nat := Palette.enter {} 0 0
    let second := first.enter 1 1
    let third := second.enter 2 1
    let left := third.paint 2 .blue
    let closed := left.paint 2 .red
    let record : List (Moment Nat Nat) :=
      [.outer [] {}, .outer [0] first, .outer [0, 1] second, .outer [0, 1, 2] third,
        .outer [0, 1, 2] third, .outer [0, 1] left, .between left, .entry 2, .between closed,
        .between closed, .between closed]
    perform (recordedColored 20 poll (StateGraph.ray.under (· % 3))
        (fun v => pure (v % 3 == 1)) false) (⟨12⟩, []) =
      (.ok (.violated (.edge 2 3) [0, 1, 2, 3]), ⟨3⟩, record) ∧
    perform (colored 20 poll (StateGraph.ray.under (· % 3)) (fun v => pure (v % 3 == 1)) false)
      ⟨12⟩ = (.ok (.violated (.edge 2 3) [0, 1, 2, 3]), ⟨3⟩) ∧
    LawfulRecord (· % 3) (· % 3 == 1) record ∧
    left.color? 2 = some .blue ∧ closed.color? 2 = some .red := by
  intro poll first second third left closed record
  have hrun := perform_recordedColored_ray 3
  obtain ⟨result, world, record', hrecorded, halone, hlawful⟩ :=
    colors_change_lawfully StateGraph.ray (· % 3) (· % 3 == 1) false poll 20 ⟨12⟩
  rw [hrun] at hrecorded
  cases hrecorded
  refine ⟨hrun, halone, hlawful, blue_rayLeft, ?_⟩
  have hclosed : (rayLeft.paint 2 .red).color? 2 = some .red := by
    rw [Palette.color?_paint_self, blue_rayLeft]
    rfl
  exact hclosed

end StateExplorer.NestedSearch
