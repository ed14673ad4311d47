import StateExplorer.Proofs.Drivers
import StateExplorer.Proofs.Visiting

/-!
# Computations that keep a record

What happens inside a check does not show in its answer. So a check is compared with one that does
the same and also writes down what is of interest on a record. `Recorded` says that the two return
the same and make the same of the world, and what then holds of the record. The record outlives a
fault, so it tells about runs without end as well.

The relation goes through the constructs of a program one by one, up to whole depth-first searches
(`RecordedSearch.run`). What a visitor has been shown to uphold along its searches holds of each
session that goes on the record (`Upholds.transcribed`).
-/

namespace StateExplorer

open DepthSearch

variable {ω ρ α β : Type}

/-- Writes something down. -/
def writeDown (item : ρ) : ExceptT Fault (StateM (ω × List ρ)) Unit :=
  modify fun s => (s.1, s.2 ++ [item])

/-- A computation that writes nothing down. -/
def offRecord (x : ExceptT Fault (StateM ω) α) : ExceptT Fault (StateM (ω × List ρ)) α :=
  fun s => ((perform x s.1).1, (perform x s.1).2, s.2)

theorem perform_offRecord {x : ExceptT Fault (StateM ω) α} {world world' : ω}
    {result : Except Fault α} (h : perform x world = (result, world')) (record : List ρ) :
    perform (offRecord x) (world, record) = (result, world', record) := by
  change ((perform x world).1, (perform x world).2, record) = _
  rw [h]

/-- From each record that satisfies `Pre` the two computations return the same and make the same of
the world. What they return and the record then satisfy `Post`, and after a fault the record is
sound. -/
def Recorded (Sound Pre : List ρ → Prop) (recorded : ExceptT Fault (StateM (ω × List ρ)) α)
    (alone : ExceptT Fault (StateM ω) α) (Post : α → List ρ → Prop) : Prop :=
  ∀ world record, Pre record → ∃ result world' record',
    perform recorded (world, record) = (result, world', record') ∧
    perform alone world = (result, world') ∧
    match result with
    | .ok a => Post a record'
    | .error _ => Sound record'

namespace Recorded

variable {Sound Pre Pre' : List ρ → Prop} {recorded : ExceptT Fault (StateM (ω × List ρ)) α}
  {alone : ExceptT Fault (StateM ω) α} {Post Post' : α → List ρ → Prop}

theorem pure {a : α} (h : ∀ record, Pre record → Post a record) :
    Recorded Sound Pre (Pure.pure a : ExceptT Fault (StateM (ω × List ρ)) α)
      (Pure.pure a) Post := by
  intro world record hpre
  exact ⟨.ok a, world, record, rfl, rfl, h record hpre⟩

theorem of_pure {a : α} (hrecorded : recorded = Pure.pure a) (halone : alone = Pure.pure a)
    (h : ∀ record, Pre record → Post a record) : Recorded Sound Pre recorded alone Post := by
  rw [hrecorded, halone]
  exact pure h

theorem throw (fault : Fault) (h : ∀ record, Pre record → Sound record) :
    Recorded Sound Pre (MonadExcept.throw fault : ExceptT Fault (StateM (ω × List ρ)) α)
      (MonadExcept.throw fault) Post := by
  intro world record hpre
  exact ⟨.error fault, world, record, rfl, rfl, h record hpre⟩

theorem bind {f : α → ExceptT Fault (StateM (ω × List ρ)) β} {g : α → ExceptT Fault (StateM ω) β}
    {Last : β → List ρ → Prop} (h : Recorded Sound Pre recorded alone Post)
    (hnext : ∀ a, Recorded Sound (Post a) (f a) (g a) Last) :
    Recorded Sound Pre (recorded >>= f) (alone >>= g) Last := by
  intro world record hpre
  obtain ⟨result, world', record', hrecorded, halone, hpost⟩ := h world record hpre
  rw [perform_bind, perform_bind, hrecorded, halone]
  cases result with
  | error fault => exact ⟨.error fault, world', record', rfl, rfl, hpost⟩
  | ok a => exact hnext a world' record' hpost

theorem of_pure_bind {a : α} {f : α → ExceptT Fault (StateM (ω × List ρ)) β}
    {g : α → ExceptT Fault (StateM ω) β} {Last : β → List ρ → Prop}
    (hrecorded : recorded = Pure.pure a) (halone : alone = Pure.pure a)
    (h : Recorded Sound Pre (f a) (g a) Last) :
    Recorded Sound Pre (recorded >>= f) (alone >>= g) Last := by
  rw [hrecorded, halone, pure_bind, pure_bind]
  exact h

theorem imp (h : Recorded Sound Pre' recorded alone Post')
    (hpre : ∀ record, Pre record → Pre' record)
    (hpost : ∀ a record, Post' a record → Post a record) :
    Recorded Sound Pre recorded alone Post := by
  intro world record hrecord
  obtain ⟨result, world', record', hrecorded, halone, hresult⟩ :=
    h world record (hpre record hrecord)
  refine ⟨result, world', record', hrecorded, halone, ?_⟩
  cases result with
  | error fault => exact hresult
  | ok a => exact hpost a record' hresult

/-- What follows from the precondition can be used. -/
theorem assuming {p : Prop} (hp : ∀ record, Pre record → p)
    (h : p → Recorded Sound Pre recorded alone Post) :
    Recorded Sound Pre recorded alone Post := by
  intro world record hpre
  exact h (hp record hpre) world record hpre

/-- What the record does not decide can be fixed beforehand. -/
theorem of_exists {γ : Type} {P : γ → Prop} {Q : γ → List ρ → Prop}
    (h : ∀ c, P c → Recorded Sound (Q c) recorded alone Post) :
    Recorded Sound (fun record => ∃ c, P c ∧ Q c record) recorded alone Post := by
  intro world record hpre
  obtain ⟨c, hc, hrecord⟩ := hpre
  exact h c hc world record hrecord

/-- What the computation can return only if it is so can be added. -/
theorem returning {Told : α → Prop} (h : Recorded Sound Pre recorded alone Post)
    (told : ∀ a, Returns alone a → Told a) :
    Recorded Sound Pre recorded alone fun a record => Post a record ∧ Told a := by
  intro world record hpre
  obtain ⟨result, world', record', hrecorded, halone, hresult⟩ := h world record hpre
  refine ⟨result, world', record', hrecorded, halone, ?_⟩
  cases result with
  | error fault => exact hresult
  | ok a => exact ⟨hresult, told a ⟨world, world', halone⟩⟩

theorem offRecord (alone : ExceptT Fault (StateM ω) α) (h : ∀ record, Pre record → Sound record) :
    Recorded Sound Pre (StateExplorer.offRecord alone) alone fun _ => Pre := by
  intro world record hpre
  rcases halone : perform alone world with ⟨fault | a, world'⟩
  · exact ⟨.error fault, world', record, perform_offRecord halone record, rfl, h record hpre⟩
  · exact ⟨.ok a, world', record, perform_offRecord halone record, rfl, hpre⟩

theorem writeDown {item : ρ} (h : Recorded Sound Pre' recorded alone Post)
    (hpre : ∀ record, Pre record → Pre' (record ++ [item])) :
    Recorded Sound Pre (StateExplorer.writeDown item >>= fun _ => recorded) alone Post := by
  intro world record hrecord
  exact h world (record ++ [item]) (hpre record hrecord)

end Recorded

/-! ## Runs of a machine -/

/-- The machine, writing something down at the start of each step. -/
def Machine.recording {τ : Type} (item : τ → ρ)
    (machine : Machine (ExceptT Fault (StateM (ω × List ρ))) τ) :
    Machine (ExceptT Fault (StateM (ω × List ρ))) τ :=
  { machine with step := fun t => writeDown (item t) >>= fun _ => machine.step t }

namespace Machine

variable {τ : Type} {item : τ → ρ} {machine : Machine (ExceptT Fault (StateM (ω × List ρ))) τ}
  {poll : ExceptT Fault (StateM ω) Bool} {t t' : τ} {world world' : ω} {record : List ρ}
  {after : ω × List ρ}

/-- A run that is not told to stop writes something down before it takes a step. -/
theorem perform_run_recording_succ (hpoll : perform poll world = (.ok false, world')) (fuel : Nat)
    (t : τ) (record : List ρ) :
    perform ((machine.recording item).run (offRecord poll) (fuel + 1) t) (world, record) =
      match perform (machine.step t) (world', record ++ [item t]) with
      | (.ok (none, t), after) => (.ok (.exhausted, t), after)
      | (.ok (some .abort, t), after) => (.ok (.aborted, t), after)
      | (.ok (some .proceed, t), after) =>
        perform ((machine.recording item).run (offRecord poll) fuel t) after
      | (.error fault, after) => (.error fault, after) := by
  have hstep : perform ((machine.recording item).step t) (world', record) =
      perform (machine.step t) (world', record ++ [item t]) := rfl
  rw [run, perform_bind_of_ok (perform_offRecord hpoll record), if_neg Bool.false_ne_true,
    perform_bind, hstep]
  rcases perform (machine.step t) (world', record ++ [item t]) with ⟨_ | ⟨_ | (_ | _), t⟩, after⟩
    <;> rfl

theorem perform_run_recording_of_step (hpoll : perform poll world = (.ok false, world'))
    (h : perform (machine.step t) (world', record ++ [item t]) = (.ok (some .proceed, t'), after))
    (fuel : Nat) :
    perform ((machine.recording item).run (offRecord poll) (fuel + 1) t) (world, record) =
      perform ((machine.recording item).run (offRecord poll) fuel t') after := by
  rw [perform_run_recording_succ hpoll, h]

/-- A step that has no effect but on the machine. -/
theorem perform_run_recording_of_pure (hpoll : perform poll world = (.ok false, world'))
    (h : machine.step t = pure (some .proceed, t')) (record : List ρ) (fuel : Nat) :
    perform ((machine.recording item).run (offRecord poll) (fuel + 1) t) (world, record) =
      perform ((machine.recording item).run (offRecord poll) fuel t')
        (world', record ++ [item t]) := by
  rw [perform_run_recording_succ hpoll, h]
  rfl

theorem perform_run_recording_of_abort (hpoll : perform poll world = (.ok false, world'))
    (h : perform (machine.step t) (world', record ++ [item t]) = (.ok (some .abort, t'), after))
    (fuel : Nat) :
    perform ((machine.recording item).run (offRecord poll) (fuel + 1) t) (world, record) =
      (.ok (.aborted, t'), after) := by
  rw [perform_run_recording_succ hpoll, h]

end Machine

/-- What holds after a step, by what it says. -/
def Stepwise {τ : Type} (Going Stopped : τ → List ρ → Prop) (result : Option Signal × τ) :
    List ρ → Prop :=
  match result.1 with
  | some .abort => Stopped result.2
  | _ => Going result.2

/-- If what holds of a machine while it goes on is kept by each step, it holds along a whole run. -/
theorem Recorded.run {τ : Type} {Sound : List ρ → Prop} {Going Stopped : τ → List ρ → Prop}
    {recorded : Machine (ExceptT Fault (StateM (ω × List ρ))) τ}
    {alone : Machine (ExceptT Fault (StateM ω)) τ}
    (sound : ∀ t record, Going t record → Sound record)
    (quiet : ∀ t, recorded.noteCancelled t = Pure.pure () ∧ alone.noteCancelled t = Pure.pure ())
    (step : ∀ t, Recorded Sound (Going t) (recorded.step t) (alone.step t) (Stepwise Going Stopped))
    (poll : ExceptT Fault (StateM ω) Bool) (fuel : Nat) (t : τ) :
    Recorded Sound (Going t) (recorded.run (StateExplorer.offRecord poll) fuel t)
      (alone.run poll fuel t)
      fun result record =>
        result.1.Ensures (Going result.2 record) (Stopped result.2 record)
          (Going result.2 record) := by
  induction fuel generalizing t with
  | zero => exact .throw _ (sound t)
  | succ fuel ih =>
    rw [Machine.run, Machine.run]
    refine (Recorded.offRecord poll (sound t)).bind fun stop => ?_
    cases stop with
    | true =>
      simp only [if_true, (quiet t).1, (quiet t).2, pure_bind]
      exact .pure fun _ h => h
    | false =>
      simp only [Bool.false_eq_true, if_false]
      refine (step t).bind fun result => ?_
      obtain ⟨signal, next⟩ := result
      rcases signal with _ | (_ | _)
      · exact .pure fun _ h => h
      · exact ih next
      · exact .pure fun _ h => h

/-! ## Depth-first searches -/

section Searches

variable {V K κ σ : Type} [Store κ K] [Render V] {graph : StateGraph Id V} {key : V → K}
  {first : DepthSearch V κ} {Sound : List ρ → Prop}
  {recorded : Visitor (ExceptT Fault (StateM (ω × List ρ))) V (DepthSearch V κ) σ}
  {alone : Visitor (ExceptT Fault (StateM ω)) V (DepthSearch V κ) σ}
  {item : Session (DepthSearch V κ) σ → ρ}
  {Inv : List (Event V) → DepthSearch V κ → σ → List ρ → Prop}
  {Stop : DepthSearch V κ → σ → List ρ → Prop}

/-- The record after something has been written down at the start of a step. -/
def Begun (item : Session (DepthSearch V κ) σ → ρ)
    (Inv : List (Event V) → DepthSearch V κ → σ → List ρ → Prop) (log : List (Event V))
    (search : DepthSearch V κ) (state : σ) (record : List ρ) : Prop :=
  ∃ before, record = before ++ [item { search, state }] ∧ Inv log search state before

/-- Two visitors do the same, of which one writes on the record, and keep an invariant between what
they have been told, the search, their state and the record. At the start of each step something is
written on the record. -/
structure RecordedSearch (graph : StateGraph Id V) (key : V → K) (first : DepthSearch V κ)
    (Sound : List ρ → Prop)
    (recorded : Visitor (ExceptT Fault (StateM (ω × List ρ))) V (DepthSearch V κ) σ)
    (alone : Visitor (ExceptT Fault (StateM ω)) V (DepthSearch V κ) σ)
    (item : Session (DepthSearch V κ) σ → ρ)
    (Inv : List (Event V) → DepthSearch V κ → σ → List ρ → Prop)
    (Stop : DepthSearch V κ → σ → List ρ → Prop) : Prop where
  sound : ∀ {log search state record}, Inv log search state record → Sound record
  begin : ∀ {log search state record}, Inv log search state record →
    Inv log search state (record ++ [item { search, state }])
  enter : ∀ {log search state top rest target}, Explores graph key first log search →
    search.stack.items = top :: rest → search.offer top = some target →
    Store.knows search.known (key target) = false →
    Recorded Sound (Begun item Inv log search state)
      (recorded.enter top.vertex target (search.advance.learn (key target)) state)
      (alone.enter top.vertex target (search.advance.learn (key target)) state)
      fun answer record => answer.1.Ensures
        (Inv (log ++ [.entry top.vertex target])
          ((search.advance.learn (key target)).pushed graph target) answer.2 record)
        (Stop (search.advance.learn (key target)) answer.2 record)
  revisit : ∀ {log search state top rest target}, Explores graph key first log search →
    search.stack.items = top :: rest → search.offer top = some target →
    Store.knows search.known (key target) = true →
    Recorded Sound (Begun item Inv log search state)
      (recorded.revisit top.vertex target search.advance state)
      (alone.revisit top.vertex target search.advance state)
      fun answer record => answer.1.Ensures
        (Inv (log ++ [.known top.vertex target]) search.advance answer.2 record)
        (Stop search.advance answer.2 record)
  leave : ∀ {log search state top rest vertex}, Explores graph key first log search →
    search.stack.items = top :: rest → search.offer top = none → top.vertex = some vertex →
    Recorded Sound (Begun item Inv log search state)
      (recorded.leave vertex top search.pop state) (alone.leave vertex top search.pop state)
      fun answer record => answer.1.Ensures
        (Inv (log ++ [.exit vertex top]) search.pop answer.2 record)
        (Stop search.pop answer.2 record)
  finish : ∀ {log search state top rest record}, Explores graph key first log search →
    search.stack.items = top :: rest → search.offer top = none → top.vertex = none →
    Inv log search state record → Inv log search.pop state record

namespace RecordedSearch

/-- The invariant holds after some exploration. -/
def Going (graph : StateGraph Id V) (key : V → K) (first : DepthSearch V κ)
    (Inv : List (Event V) → DepthSearch V κ → σ → List ρ → Prop) (t : Session (DepthSearch V κ) σ)
    (record : List ρ) : Prop :=
  ∃ log, Explores graph key first log t.search ∧ Inv log t.search t.state record

theorem step (h : RecordedSearch graph key first Sound recorded alone item Inv Stop)
    (t : Session (DepthSearch V κ) σ) :
    Recorded Sound (Going graph key first Inv t)
      (((machine (graph.under key) recorded).recording item).step t)
      ((machine (graph.under key) alone).step t)
      (Stepwise (Going graph key first Inv) fun t => Stop t.search t.state) := by
  refine Recorded.of_exists fun log explores => ?_
  have hbegun : ∀ record, Inv log t.search t.state record →
      Begun item Inv log t.search t.state (record ++ [item t]) := fun record hinv =>
    ⟨record, rfl, hinv⟩
  have hgoing : ∀ record, Begun item Inv log t.search t.state record →
      Inv log t.search t.state record := by
    intro record hrecord
    obtain ⟨before, rfl, hinv⟩ := hrecord
    exact h.begin hinv
  refine Recorded.writeDown ?_ hbegun
  change Recorded Sound _ (DepthSearch.step (graph.under key) recorded t)
    (DepthSearch.step (graph.under key) alone t) _
  unfold DepthSearch.step
  cases items : t.search.stack.items with
  | nil => exact .pure fun record hrecord => ⟨log, explores, hgoing record hrecord⟩
  | cons top rest =>
    cases offer : t.search.offer top with
    | none =>
      cases hv : top.vertex with
      | none =>
        simp only [offer, hv, Journal.trace_eq, pure_bind]
        refine .pure fun record hrecord => ?_
        exact ⟨log, (List.append_nil log) ▸ explores.step (.finish items offer hv),
          h.finish explores items offer hv (hgoing record hrecord)⟩
      | some vertex =>
        simp only [offer, hv, Journal.trace_eq, pure_bind]
        refine (h.leave explores items offer hv).bind fun answer => .pure fun record hanswer => ?_
        obtain ⟨signal, state⟩ := answer
        cases signal with
        | abort => exact hanswer
        | proceed => exact ⟨_, explores.step (.leave items offer hv), hanswer⟩
    | some target =>
      simp only [offer, StateGraph.under, pure_bind, Journal.trace_eq]
      have hadvance : t.search.advance.known = t.search.known := rfl
      cases hknown : Store.knows t.search.known (key target) with
      | true =>
        simp only [hadvance, hknown, if_true]
        refine (h.revisit explores items offer hknown).bind fun answer =>
          .pure fun record hanswer => ?_
        obtain ⟨signal, state⟩ := answer
        cases signal with
        | abort => exact hanswer
        | proceed => exact ⟨_, explores.step (.revisit items offer hknown), hanswer⟩
      | false =>
        simp only [hadvance, hknown, Bool.false_eq_true, if_false]
        refine (h.enter explores items offer hknown).bind fun answer => ?_
        obtain ⟨signal, state⟩ := answer
        cases signal with
        | abort => exact .pure fun record hanswer => hanswer
        | proceed =>
          refine .pure fun record hanswer => ?_
          exact ⟨_, explores.step (.enter items offer hknown), hanswer⟩

theorem run (h : RecordedSearch graph key first Sound recorded alone item Inv Stop)
    (poll : ExceptT Fault (StateM ω) Bool) (fuel : Nat) (t : Session (DepthSearch V κ) σ) :
    Recorded Sound (Going graph key first Inv t)
      (((machine (graph.under key) recorded).recording item).run (offRecord poll) fuel t)
      ((machine (graph.under key) alone).run poll fuel t)
      fun result record => result.1.Ensures (Going graph key first Inv result.2 record)
        (Stop result.2.search result.2.state record)
          (Going graph key first Inv result.2 record) := by
  refine Recorded.run ?_ (fun t => ⟨Journal.debug_eq _, Journal.debug_eq _⟩) h.step poll fuel t
  intro t record hgoing
  obtain ⟨log, -, hinv⟩ := hgoing
  exact h.sound hinv

end RecordedSearch

/-! ## What a visitor upholds -/

/-- Nothing on the record is amiss. -/
def Spotless (Fine : ρ → Prop) (record : List ρ) : Prop := ∀ item ∈ record, Fine item

theorem spotless_concat {Fine : ρ → Prop} {record : List ρ} {a : ρ} :
    Spotless Fine (record ++ [a]) ↔ Spotless Fine record ∧ Fine a := by
  simp [Spotless, or_imp, forall_and]

/-- Two visitors do the same, of which one writes on the record, and keep the record sound. -/
structure Transcribes (Sound : List ρ → Prop)
    (recorded : Visitor (ExceptT Fault (StateM (ω × List ρ))) V (DepthSearch V κ) σ)
    (alone : Visitor (ExceptT Fault (StateM ω)) V (DepthSearch V κ) σ) : Prop where
  enter : ∀ source target search state, Recorded Sound Sound
    (recorded.enter source target search state)
    (alone.enter source target search state) fun _ => Sound
  revisit : ∀ source target search state, Recorded Sound Sound
    (recorded.revisit source target search state) (alone.revisit source target search state)
    fun _ => Sound
  leave : ∀ vertex frame search state, Recorded Sound Sound
    (recorded.leave vertex frame search state)
    (alone.leave vertex frame search state) fun _ => Sound

section Upheld

variable {Fine : ρ → Prop} {Held : List (Event V) → DepthSearch V κ → σ → Prop}
  {End : DepthSearch V κ → σ → Prop}

/-- What the visitor upholds holds after some exploration, and the record is spotless. -/
structure Upheld (graph : StateGraph Id V) (key : V → K) (first : DepthSearch V κ) (Fine : ρ → Prop)
    (Held : List (Event V) → DepthSearch V κ → σ → Prop) (log : List (Event V))
    (search : DepthSearch V κ) (state : σ) (record : List ρ) : Prop where
  explores : Explores graph key first log search
  held : Held log search state
  spotless : Spotless Fine record

omit [Render V] in
theorem Upheld.begin {log : List (Event V)} {search : DepthSearch V κ} {state : σ} {record : List ρ}
    (h : Upheld graph key first Fine Held log search state record)
    (fine : Explores graph key first log search → Held log search state →
      Fine (item { search, state })) :
    Upheld graph key first Fine Held log search state (record ++ [item { search, state }]) :=
  ⟨h.explores, h.held, spotless_concat.2 ⟨h.spotless, fine h.explores h.held⟩⟩

omit [Render V] in
/-- A call keeps the record spotless, and what it returns is as the visitor upholds it. -/
theorem Recorded.upheld {log log' : List (Event V)} {search search' stopped : DepthSearch V κ}
    {state : σ} {written : ExceptT Fault (StateM (ω × List ρ)) (Signal × σ)}
    {call : ExceptT Fault (StateM ω) (Signal × σ)}
    (hcall : Recorded (Spotless Fine) (Spotless Fine) written call fun _ => Spotless Fine)
    (fine : Explores graph key first log search → Held log search state →
      Fine (item { search, state }))
    (explores' : Explores graph key first log' search')
    (told : Held log search state → ∀ signal state', Returns call (signal, state') →
      signal.Ensures (Held log' search' state') (End stopped state')) :
    Recorded (Spotless Fine) (Begun item (Upheld graph key first Fine Held) log search state)
      written call
      fun answer record => answer.1.Ensures
        (Upheld graph key first Fine Held log' search' answer.2 record) (Spotless Fine record) := by
  refine Recorded.assuming (p := Held log search state) ?_ fun held => ?_
  · intro record hrecord
    obtain ⟨before, -, hupheld⟩ := hrecord
    exact hupheld.held
  refine (hcall.returning fun answer => told held answer.1 answer.2).imp ?_ ?_
  · intro record hrecord
    obtain ⟨before, rfl, hupheld⟩ := hrecord
    exact (hupheld.begin fine).spotless
  · intro answer record hanswer
    obtain ⟨signal, state'⟩ := answer
    cases signal with
    | proceed => exact ⟨explores', hanswer.2, hanswer.1⟩
    | abort => exact hanswer.1

omit [Render V] in
/-- What a visitor upholds along a search holds of each session that is written down. -/
theorem Upholds.transcribed (upholds : Upholds graph key first alone Held End)
    (transcribes : Transcribes (Spotless Fine) recorded alone)
    (fine : ∀ {log search state}, Explores graph key first log search → Held log search state →
      Fine (item { search, state })) :
    RecordedSearch graph key first (Spotless Fine) recorded alone item
      (Upheld graph key first Fine Held) (fun _ _ record => Spotless Fine record) where
  sound h := h.spotless
  begin h := h.begin fine
  enter explores items offer new :=
    Recorded.upheld (transcribes.enter _ _ _ _) fine (explores.step (.enter items offer new))
      fun held _ _ told => upholds.enter explores held items offer new told
  revisit explores items offer old :=
    Recorded.upheld (transcribes.revisit _ _ _ _) fine (explores.step (.revisit items offer old))
      fun held _ _ told => upholds.revisit explores held items offer old told
  leave explores items offer hv :=
    Recorded.upheld (transcribes.leave _ _ _ _) fine (explores.step (.leave items offer hv))
      fun held _ _ told => upholds.leave explores held items offer hv told
  finish := by
    intro log search state top rest record explores items offer hv h
    have explores' := explores.step (.finish items offer hv)
    rw [List.append_nil] at explores'
    exact ⟨explores', upholds.finish explores h.held items offer hv, h.spotless⟩

/-- A run keeps the record spotless if what the visitor upholds holds at first. -/
theorem Upholds.run_transcribed (upholds : Upholds graph key first alone Held End)
    (transcribes : Transcribes (Spotless Fine) recorded alone)
    (fine : ∀ {log search state}, Explores graph key first log search → Held log search state →
      Fine (item { search, state }))
    (poll : ExceptT Fault (StateM ω) Bool) (fuel : Nat) {log : List (Event V)}
    {t : Session (DepthSearch V κ) σ} (explores : Explores graph key first log t.search)
    (held : Held log t.search t.state) :
    Recorded (Spotless Fine) (Spotless Fine)
      (((machine (graph.under key) recorded).recording item).run (offRecord poll) fuel t)
      ((machine (graph.under key) alone).run poll fuel t) fun _ => Spotless Fine := by
  refine ((upholds.transcribed transcribes fine).run poll fuel t).imp ?_ ?_
  · exact fun record hrecord => ⟨log, explores, explores, held, hrecord⟩
  · intro result record hend
    obtain ⟨outcome, last⟩ := result
    cases outcome with
    | exhausted =>
      obtain ⟨log', -, hupheld⟩ := hend
      exact hupheld.spotless
    | aborted => exact hend
    | cancelled =>
      obtain ⟨log', -, hupheld⟩ := hend
      exact hupheld.spotless

end Upheld

end Searches

end StateExplorer
