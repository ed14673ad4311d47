import StateExplorer.Proofs.BreadthExploration
import StateExplorer.Proofs.Coupling
import StateExplorer.Proofs.Drivers

/-!
# Searches that differ in their stores

What a search does is up to its store only in so far as the store says which canonical forms are
known. Twins are searches that differ in nothing but their stores, which have learnt the same forms
(`Twin`). What a search does without a look into its store keeps them twins (`Twin.move`), and so
does a form that both of them learn (`Twin.learn`). They take the same steps as long as the store of
the second one `Serves`, that is, as long as it tells whether a form that is looked at has been
learnt.

A store that remembers serves every search (`DepthSearch.serves_of_remembers`). One that never knows
anything serves as long as nothing is met twice, which is so if no two routes of the graph lead to
the same canonical form (`DepthSearch.serves_of_routesApart`).
-/

namespace StateExplorer

open Event Store

/-! ## Stores that count -/

section Counting

variable {K κ κ' : Type} [Store κ K] [Store κ' K]

/-- The store counts what it learns, if it learns nothing twice. -/
def Store.Counts (K : Type) [Store κ K] (store : κ) : Prop :=
  ∀ keys : List K, keys.Nodup → size (learnAll store keys) = keys.length

theorem Tally.learnAll_eq (tally : Tally K) (keys : List K) :
    learnAll tally keys = { count := tally.count + keys.length } := by
  induction keys generalizing tally with
  | nil => rfl
  | cons key keys ih =>
    rw [learnAll_cons, ih, List.length_cons, Nat.add_comm keys.length, ← Nat.add_assoc]
    rfl

theorem Tally.counts : Counts K ({} : Tally K) := by
  intro keys _
  rw [learnAll_eq]
  exact Nat.zero_add _

theorem Tally.forgetful : Forgetful K ({} : Tally K) := by
  intro keys key
  rfl

/-- The stores have learnt the same forms. -/
def Store.Paired (K : Type) [Store κ K] [Store κ' K] (first : κ) (first' : κ') (known : κ)
    (known' : κ') :
    Prop :=
  ∃ keys : List K, keys.Nodup ∧ known = learnAll first keys ∧ known' = learnAll first' keys

variable {first known : κ} {first' known' : κ'}

theorem Store.Remembers.knows_iff (h : Remembers first) (keys : List K) (key : K) :
    knows (learnAll first keys) key = true ↔ key ∈ keys := by
  rw [h.faithful, h.blank]
  simp

theorem Store.Paired.size_eq (h : Paired K first first' known known') (counts : Counts K first)
    (counts' : Counts K first') : size known = size known' := by
  obtain ⟨keys, nodup, rfl, rfl⟩ := h
  rw [counts keys nodup, counts' keys nodup]

theorem Store.Paired.knows_eq (h : Paired K first first' known known') (remembers : Remembers first)
    (remembers' : Remembers first') : knows known = knows known' := by
  obtain ⟨keys, -, rfl, rfl⟩ := h
  funext key
  rw [Bool.eq_iff_iff, remembers.knows_iff, remembers'.knows_iff]

end Counting

/-! ## Graphs, visitors and sessions -/

/-- The roots and the neighbours that the graph gives are of a certain kind. -/
structure StateGraph.Gives {m : Type → Type} {V : Type} [Monad m] (graph : StateGraph m V)
    (After : Option V → Sequence V → Prop) : Prop where
  roots : Yields (After none) graph.roots
  neighbours : ∀ v, Yields (After (some v)) (graph.neighbours v)

theorem StateGraph.gives_always {m : Type → Type} {V : Type} [Monad m] [LawfulMonad m]
    (graph : StateGraph m V) : graph.Gives fun _ _ => True :=
  ⟨.always _, fun _ => .always _⟩

theorem StateGraph.gives_lift {m : Type → Type} {V : Type} [Monad m] [LawfulMonad m]
    (graph : StateGraph Id V) :
    (graph.lift : StateGraph m V).Gives fun source successors =>
      successors = graph.after source where
  roots := .pure rfl
  neighbours _ := .pure rfl

section Sessions

variable {m : Type → Type} {V σ C C' D : Type}

/-- The visitor, shown a view of the search instead of the search. -/
def Visitor.seeing (view : C → D) (visitor : Visitor m V D σ) : Visitor m V C σ where
  enter source target search := visitor.enter source target (view search)
  revisit source target search := visitor.revisit source target (view search)
  leave vertex frame search := visitor.leave vertex frame (view search)

/-- The searches are related, and their visitors are in the same state. -/
def Session.Alike (R : C → C' → Prop) (t : Session C σ) (t' : Session C' σ) : Prop :=
  R t.search t'.search ∧ t.state = t'.state

theorem Session.matched {Go Last : C → C' → Prop} {search : C} {search' : C'}
    (go : Go search search') (last : Last search search') (signal : Option Signal) (state : σ) :
    Machine.Matched (Alike Go) (Alike Last) (signal, { search, state })
      (signal, { search := search', state }) :=
  ⟨rfl, ⟨last, rfl⟩, fun _ => ⟨go, rfl⟩⟩

end Sessions

/-! ## Twins -/

/-- A kind of search that has a store, which can be exchanged for another one. -/
class Storing (S : Type → Type) where
  /-- The store. -/
  store : {κ : Type} → S κ → κ
  /-- The search with another store. -/
  withStore : {κ κ' : Type} → S κ → κ' → S κ'
  store_withStore : ∀ {κ κ' : Type} (search : S κ) (known : κ'),
    store (withStore search known) = known
  withStore_store : ∀ {κ : Type} (search : S κ), withStore search (store search) = search

open Storing (store withStore)

section Twins

variable {S : Type → Type} [Storing S] {K κ κ' : Type} [Store κ K] [Store κ' K]

/-- The searches differ only in their stores, which have learnt the same forms. The trail is what
else is known of the first search. -/
def Twin (first : κ) (first' : κ') (Trail : List K → S κ → Prop) (search : S κ) (search' : S κ') :
    Prop :=
  ∃ keys, keys.Nodup ∧ Trail keys search ∧ store search = learnAll first keys ∧
    search' = withStore search (learnAll first' keys)

/-- The stores of the searches have learnt the same forms. -/
abbrev PairedStores (first : κ) (first' : κ') (search : S κ) (search' : S κ') : Prop :=
  Paired K first first' (store search) (store search')

/-- Two steps end alike. The searches are twins if they go on, and in any case their stores have
learnt the same forms. -/
abbrev InStep {m : Type → Type} [Monad m] {σ : Type} (first : κ) (first' : κ')
    (Trail : List K → S κ → Prop) : m (Option Signal × Session (S κ) σ) →
    m (Option Signal × Session (S κ') σ) → Prop :=
  Coupled (Machine.Matched (Session.Alike (Twin first first' Trail))
    (Session.Alike (PairedStores first first')))

/-- The move leaves the store alone and does the same whatever it is. -/
def Storing.Leaves (move : ∀ κ : Type, S κ → S κ) : Prop :=
  ∀ (κ κ' : Type) (search : S κ) (known : κ'),
    move κ' (withStore search known) = withStore (move κ search) known

/-- The move learns a form and else does the same whatever the store is. -/
def Storing.Learns (key : K) (move : ∀ (κ : Type) [Store κ K], S κ → S κ) : Prop :=
  ∀ (κ κ' : Type) [Store κ K] [Store κ' K] (search : S κ) (known : κ'),
    move κ' (withStore search known) = withStore (move κ search) (learn known key).2

theorem Storing.Leaves.store_eq {move : ∀ κ : Type, S κ → S κ} (h : Storing.Leaves move)
    (search : S κ) : store (move κ search) = store search := by
  have hmove := h κ κ search (store search)
  rw [Storing.withStore_store] at hmove
  rw [hmove, Storing.store_withStore]

theorem Storing.Learns.store_eq {key : K} {move : ∀ (κ : Type) [Store κ K], S κ → S κ}
    (h : Storing.Learns key move) (search : S κ) :
    store (move κ search) = (learn (store search) key).2 := by
  have hmove := h κ κ search (store search)
  rw [Storing.withStore_store] at hmove
  rw [hmove, Storing.store_withStore]

variable {first : κ} {first' : κ'} {Trail Trail' : List K → S κ → Prop} {search : S κ}
  {search' : S κ'} {key : K}

namespace Twin

theorem paired (h : Twin first first' Trail search search') :
    PairedStores first first' search search' := by
  obtain ⟨keys, nodup, -, hstore, rfl⟩ := h
  exact ⟨keys, nodup, hstore, Storing.store_withStore _ _⟩

/-- What can be seen without a look into the store is the same. -/
theorem view_eq {β : Type} (view : ∀ κ : Type, S κ → β)
    (hview : ∀ {κ κ' : Type} (search : S κ) (known : κ'),
      view κ' (withStore search known) = view κ search)
    (h : Twin first first' Trail search search') : view κ' search' = view κ search := by
  obtain ⟨keys, -, -, -, rfl⟩ := h
  exact hview _ _

theorem move {move : ∀ κ : Type, S κ → S κ} (leaves : Storing.Leaves move)
    (h : Twin first first' Trail search search')
    (trail : ∀ keys, Trail keys search → Trail' keys (move κ search)) :
    Twin first first' Trail' (move κ search) (move κ' search') := by
  obtain ⟨keys, nodup, htrail, hstore, rfl⟩ := h
  exact ⟨keys, nodup, trail keys htrail, (leaves.store_eq search).trans hstore, leaves _ _ _ _⟩

theorem learn {move : ∀ (κ : Type) [Store κ K], S κ → S κ} (learns : Storing.Learns key move)
    (h : Twin first first' Trail search search') (new : ∀ keys, Trail keys search → key ∉ keys)
    (trail : ∀ keys, Trail keys search → Trail' (keys ++ [key]) (move κ search)) :
    Twin first first' Trail' (move κ search) (move κ' search') := by
  obtain ⟨keys, nodup, htrail, hstore, rfl⟩ := h
  refine ⟨keys ++ [key], ?_, trail keys htrail, ?_, ?_⟩
  · rw [← List.concat_eq_append]
    exact nodup.concat (new keys htrail)
  · rw [learns.store_eq, hstore, learnAll_concat]
  · rw [learns, learnAll_concat]

/-- The stores agree about a form that the second one recalls. -/
theorem look (h : Twin first first' Trail search search') (remembers : Remembers first)
    (recalls : ∀ keys, Trail keys search →
      (knows (learnAll first' keys) key = true ↔ key ∈ keys)) :
    (knows (store search) key = true ∧ knows (store search') key = true ∧
      Twin first first' (fun keys search => Trail keys search ∧ key ∈ keys) search search') ∨
    (knows (store search) key = false ∧ knows (store search') key = false ∧
      Twin first first' (fun keys search => Trail keys search ∧ key ∉ keys) search search') := by
  obtain ⟨keys, nodup, trail, hstore, rfl⟩ := h
  have hiff : knows (store search) key = true ↔ key ∈ keys := by
    rw [hstore]
    exact remembers.knows_iff keys key
  have hiff' : knows (store (withStore search (learnAll first' keys))) key = true ↔ key ∈ keys := by
    rw [Storing.store_withStore]
    exact recalls keys trail
  by_cases hmem : key ∈ keys
  · exact Or.inl ⟨hiff.2 hmem, hiff'.2 hmem, keys, nodup, ⟨trail, hmem⟩, hstore, rfl⟩
  · exact Or.inr ⟨Bool.eq_false_iff.2 (mt hiff.1 hmem), Bool.eq_false_iff.2 (mt hiff'.1 hmem),
      keys, nodup, ⟨trail, hmem⟩, hstore, rfl⟩

end Twin

section Calls

variable {m : Type → Type} [Monad m] [LawfulMonad m] {σ : Type}

/-- Twins go on alike after a call that tells the number of discoveries. -/
theorem Twin.call (call : Nat → m (Signal × σ)) (h : Twin first first' Trail search search')
    (remembers : Remembers first) (counts : Counts K first') :
    InStep first first' Trail
      (call (size (store search)) >>= fun answer =>
        pure (some answer.1, { search, state := answer.2 }))
      (call (size (store search')) >>= fun answer =>
        pure (some answer.1, { search := search', state := answer.2 })) := by
  rw [h.paired.size_eq remembers.size_learnAll counts]
  exact Coupled.after (.always _) fun answer _ => .pure (Session.matched h h.paired _ _)

/-- When a form has been learnt, the searches stop here or go on as twins. -/
theorem PairedStores.call (call : Nat → m (Signal × σ))
    (h : PairedStores first first' search search') (remembers : Remembers first)
    (counts : Counts K first') {next : σ → m (Option Signal × Session (S κ) σ)}
    {next' : σ → m (Option Signal × Session (S κ') σ)}
    (go : ∀ state, InStep first first' Trail (next state) (next' state)) :
    InStep first first' Trail
      (call (size (store search)) >>= fun answer =>
        match answer with
        | (.abort, state) => pure (some .abort, { search, state })
        | (.proceed, state) => next state)
      (call (size (store search')) >>= fun answer =>
        match answer with
        | (.abort, state) => pure (some .abort, { search := search', state })
        | (.proceed, state) => next' state) := by
  rw [h.size_eq remembers.size_learnAll counts]
  refine Coupled.after (.always _) fun answer _ => ?_
  obtain ⟨signal, state⟩ := answer
  cases signal with
  | abort => exact .pure ⟨rfl, ⟨h, rfl⟩, fun hgo => by cases hgo⟩
  | proceed => exact go state

omit [LawfulMonad m] in
/-- Machines whose searches are twins take the same steps. -/
theorem Machine.Twins.of_step {machine : Machine m (Session (S κ) σ)}
    {machine' : Machine m (Session (S κ') σ)}
    (step : ∀ {search search'} state, Twin first first' Trail search search' →
      InStep first first' Trail (machine.step { search, state })
        (machine'.step { search := search', state }))
    (isOver : ∀ {search search'} state, Twin first first' Trail search search' →
      machine.isOver { search, state } = machine'.isOver { search := search', state })
    (note : ∀ t t', machine.noteCancelled t = machine'.noteCancelled t') :
    machine.Twins (Session.Alike (Twin first first' Trail))
      (Session.Alike (PairedStores first first')) machine' where
  step := by
    rintro ⟨search, state⟩ ⟨search', state'⟩ ⟨twin, rfl⟩
    exact step state twin
  last h := ⟨h.1.paired, h.2⟩
  isOver := by
    rintro ⟨search, state⟩ ⟨search', state'⟩ ⟨twin, rfl⟩
    exact isOver state twin
  note _ := note _ _

end Calls

end Twins

/-! ## Depth-first searches with different stores -/

namespace DepthSearch

variable {V K κ κ' σ : Type}

instance : Storing (DepthSearch V) where
  store search := search.known
  withStore search known := { stack := search.stack, known, bound := search.bound }
  store_withStore _ _ := rfl
  withStore_store _ := rfl

theorem leaves_pop : Storing.Leaves (S := DepthSearch V) fun _ search => search.pop :=
  fun _ _ _ _ => rfl

theorem leaves_advance : Storing.Leaves (S := DepthSearch V) fun _ search => search.advance :=
  fun _ _ _ _ => rfl

theorem learns_learn (form : K) :
    Storing.Learns (S := DepthSearch V) form fun _ _ search => search.advance.learn form :=
  fun _ _ _ _ _ _ => rfl

variable [Store κ K] [Store κ' K]

/-- The search after it has entered a vertex with the given neighbours. -/
def entered (search : DepthSearch V κ) (form : K) (target : V) (successors : Sequence V) :
    DepthSearch V κ :=
  { search.advance.learn form with
    stack := search.advance.stack.push { vertex := some target, successors } }

theorem learns_entered (form : K) (target : V) (successors : Sequence V) :
    Storing.Learns (S := DepthSearch V) form fun _ _ search =>
      search.entered form target successors :=
  fun _ _ _ _ _ _ => rfl

/-- A trail is kept up by the steps of a search that is given certain successors. Along it the store
says of the neighbour that is looked at whether its form has been learnt. -/
structure Serves (key : V → K) (After : Option V → Sequence V → Prop) (first : κ)
    (bound : Option Nat) (Trail : List K → DepthSearch V κ → Prop) (store : κ') : Prop where
  recalls : ∀ {keys search top rest target}, Trail keys search → search.stack.items = top :: rest →
    search.offer top = some target →
    (Store.knows (learnAll store keys) (key target) = true ↔ key target ∈ keys)
  start : ∀ {successors}, After none successors →
    Trail [] { stack := Stack.empty.push { vertex := none, successors }, known := first, bound }
  pop : ∀ {keys search top rest}, Trail keys search → search.stack.items = top :: rest →
    search.offer top = none → Trail keys search.pop
  advance : ∀ {keys search top rest target}, Trail keys search → search.stack.items = top :: rest →
    search.offer top = some target → key target ∈ keys → Trail keys search.advance
  enter : ∀ {keys search top rest target successors}, Trail keys search →
    search.stack.items = top :: rest → search.offer top = some target → key target ∉ keys →
    After (some target) successors →
    Trail (keys ++ [key target]) (search.entered (key target) target successors)

variable {key : V → K} {After : Option V → Sequence V → Prop} {bound : Option Nat} {first : κ}
  {first' : κ'} {Trail : List K → DepthSearch V κ → Prop} {search : DepthSearch V κ}
  {search' : DepthSearch V κ'} {top : Frame V} {rest : List (Frame V)} {target : V}

section Step

variable {m : Type → Type} [Monad m] [LawfulMonad m] [Journal m] [Journal.Quiet m] [Render V]
  {graph : StateGraph m V}

/-- Twins take the same steps. -/
theorem step_coupled (remembers : Remembers first) (counts : Counts K first')
    (serves : Serves key After first bound Trail first') (gives : graph.Gives After)
    (visitor : Visitor m V Nat σ) (twin : Twin first first' Trail search search') (state : σ) :
    InStep first first' Trail
      (step (graph.keyed key) (visitor.seeing discovered) { search, state })
      (step (graph.keyed key) (visitor.seeing discovered) { search := search', state }) := by
  have hstack := twin.view_eq (fun _ search => search.stack) fun _ _ => rfl
  have hoffer := twin.view_eq (fun _ search => search.offer) fun _ _ => rfl
  cases items : search.stack.items with
  | nil =>
    have items' : search'.stack.items = [] := by rw [hstack, items]
    rw [step_over items, step_over items']
    exact .pure (Session.matched twin twin.paired none state)
  | cons top rest =>
    have items' : search'.stack.items = top :: rest := by rw [hstack, items]
    cases offer : search.offer top with
    | none =>
      have offer' : search'.offer top = none := by rw [hoffer, offer]
      have hpop : Twin first first' Trail search.pop search'.pop :=
        twin.move leaves_pop fun _ trail => serves.pop trail items offer
      cases hv : top.vertex with
      | none =>
        rw [step_finish items offer hv, step_finish items' offer' hv]
        exact .pure (Session.matched hpop hpop.paired _ _)
      | some vertex =>
        rw [step_leave items offer hv, step_leave items' offer' hv]
        exact hpop.call (fun n => visitor.leave vertex top n state) remembers counts
    | some target =>
      have offer' : search'.offer top = some target := by rw [hoffer, offer]
      rcases twin.look remembers fun _ trail => serves.recalls trail items offer with
        ⟨old, old', htwin⟩ | ⟨new, new', htwin⟩
      · have hadvance : Twin first first' Trail search.advance search'.advance :=
          htwin.move leaves_advance fun _ h => serves.advance h.1 items offer h.2
        rw [step_revisit_of_key rfl items offer old, step_revisit_of_key rfl items' offer' old']
        exact hadvance.call (fun n => visitor.revisit top.vertex target n state) remembers counts
      · -- the form is learnt before the call, and the vertex is on the stack only after it
        have hlearn : Twin first first' (fun _ _ => True) (search.advance.learn (key target))
            (search'.advance.learn (key target)) :=
          htwin.learn (learns_learn _) (fun _ h => h.2) fun _ _ => trivial
        rw [step_enter_of_key rfl items offer new, step_enter_of_key rfl items' offer' new']
        refine PairedStores.call (fun n => visitor.enter top.vertex target n state) hlearn.paired
          remembers counts fun state => ?_
        simp only [push, bind_assoc, pure_bind]
        refine Coupled.after (gives.neighbours target) fun successors hafter => .pure ?_
        have hentered : Twin first first' Trail (search.entered (key target) target successors)
            (search'.entered (key target) target successors) :=
          htwin.learn (learns_entered _ target successors) (fun _ h => h.2) fun _ h =>
            serves.enter h.1 items offer h.2 hafter
        exact Session.matched hentered hentered.paired _ _

theorem twins (remembers : Remembers first) (counts : Counts K first')
    (serves : Serves key After first bound Trail first') (gives : graph.Gives After)
    (visitor : Visitor m V Nat σ) :
    (machine (graph.keyed key) (visitor.seeing discovered)).Twins
      (Session.Alike (Twin first first' Trail)) (Session.Alike (PairedStores first first'))
      (machine (graph.keyed key) (visitor.seeing discovered)) := by
  refine .of_step (fun state twin => ?_) (fun _ twin => ?_) fun _ _ => ?_
  · exact step_coupled remembers counts serves gives visitor twin state
  · exact (twin.view_eq (fun _ search => search.stack.isEmpty) fun _ _ => rfl).symm
  · exact (Journal.debug_eq _).trans (Journal.debug_eq _).symm

end Step

/-- A store that remembers serves every search. -/
theorem serves_of_remembers (remembers : Remembers first') :
    Serves key (fun _ _ => True) first bound (fun _ _ => True) first' where
  recalls _ _ _ := remembers.knows_iff _ _
  start _ := trivial
  pop _ _ _ := trivial
  advance _ _ _ _ := trivial
  enter _ _ _ _ _ := trivial

/-- A store that never knows anything serves where no two routes lead to the same form. -/
theorem serves_of_routesApart {graph : StateGraph Id V} (apart : graph.RoutesApart key)
    (remembers : Remembers first) (forgetful : Forgetful K first') :
    Serves key (fun source successors => successors = graph.after source) first bound
      (fun keys search => ∃ log, Explores graph key (fresh graph first bound) log search ∧
        keys = (discoveries log).map key) first' := by
  have hnew : ∀ {log search top rest target},
      Explores graph key (fresh graph first bound) log search → search.stack.items = top :: rest →
      search.offer top = some target → key target ∉ (discoveries log).map key := by
    intro log search top rest target explores items offer
    refine explores.agenda.not_mem_of_routesApart remembers.faithful apart ?_ (peek_of_offer offer)
    change top ∈ (search.stack.items : Multiset (Frame V))
    rw [items]
    exact List.mem_cons_self
  constructor
  case recalls =>
    rintro keys search top rest target ⟨log, explores, rfl⟩ items offer
    exact iff_of_false (Bool.eq_false_iff.1 (forgetful _ _)) (hnew explores items offer)
  case start =>
    rintro successors rfl
    exact ⟨[], .refl, rfl⟩
  case pop =>
    rintro keys search top rest ⟨log, explores, rfl⟩ items offer
    cases hv : top.vertex with
    | none => exact ⟨_, explores.step (.finish items offer hv), by simp⟩
    | some vertex => exact ⟨_, explores.step (.leave items offer hv), by simp⟩
  case advance =>
    rintro keys search top rest target ⟨log, explores, rfl⟩ items offer hmem
    exact absurd hmem (hnew explores items offer)
  case enter =>
    rintro keys search top rest target successors ⟨log, explores, rfl⟩ items offer hmem rfl
    have new : Store.knows search.known (key target) = false := by
      rw [explores.known_eq, Bool.eq_false_iff, ne_eq, remembers.knows_iff]
      exact hmem
    exact ⟨_, explores.step (.enter items offer new), by simp⟩

end DepthSearch

/-! ## Breadth-first searches with different stores -/

namespace BreadthSearch

variable {V K κ κ' σ : Type}

instance : Storing (BreadthSearch V) where
  store search := search.known
  withStore search known := { expanding := search.expanding, frontier := search.frontier, known }
  store_withStore _ _ := rfl
  withStore_store _ := rfl

theorem leaves_advance : Storing.Leaves (S := BreadthSearch V) fun _ search => search.advance :=
  fun _ _ _ _ => rfl

theorem leaves_turn (expanding : Option (Frame V)) (frontier : Queue V) :
    Storing.Leaves (S := BreadthSearch V) fun _ search => { search with expanding, frontier } :=
  fun _ _ _ _ => rfl

theorem learns_push (form : K) (target : V) :
    Storing.Learns (S := BreadthSearch V) form fun _ _ search =>
      (search.advance.learn form).push target :=
  fun _ _ _ _ _ _ => rfl

variable [Store κ K] [Store κ' K]

/-- A trail is kept up by the steps of a search that is given certain successors. Along it the store
says of the neighbour that is looked at whether its form has been learnt. -/
structure Serves (key : V → K) (After : Option V → Sequence V → Prop) (first : κ)
    (Trail : List K → BreadthSearch V κ → Prop) (store : κ') : Prop where
  recalls : ∀ {keys search frame target}, Trail keys search → search.expanding = some frame →
    frame.peek = some target →
    (Store.knows (learnAll store keys) (key target) = true ↔ key target ∈ keys)
  start : ∀ {successors}, After none successors →
    Trail []
      { expanding := some { vertex := none, successors }, frontier := .empty, known := first }
  finish : ∀ {keys search frame}, Trail keys search → search.expanding = some frame →
    frame.peek = none → search.frontier.pop? = none → Trail keys { search with expanding := none }
  turn : ∀ {keys search frame vertex frontier successors}, Trail keys search →
    search.expanding = some frame → frame.peek = none →
    search.frontier.pop? = some (vertex, frontier) → After (some vertex) successors →
    Trail keys { search with expanding := some { vertex := some vertex, successors }, frontier }
  advance : ∀ {keys search frame target}, Trail keys search → search.expanding = some frame →
    frame.peek = some target → key target ∈ keys → Trail keys search.advance
  enter : ∀ {keys search frame target}, Trail keys search → search.expanding = some frame →
    frame.peek = some target → key target ∉ keys →
    Trail (keys ++ [key target]) ((search.advance.learn (key target)).push target)

variable {key : V → K} {After : Option V → Sequence V → Prop} {first : κ} {first' : κ'}
  {Trail : List K → BreadthSearch V κ → Prop} {search : BreadthSearch V κ}
  {search' : BreadthSearch V κ'} {frame : Frame V} {target : V}

section Step

variable {m : Type → Type} [Monad m] [LawfulMonad m] {graph : StateGraph m V}

theorem expandNext_coupled (twin : Twin first first' Trail search search')
    (serves : Serves key After first Trail first') (gives : graph.Gives After)
    (expanding : search.expanding = some frame) (peek : frame.peek = none) :
    Coupled (Twin first first' Trail) (search.expandNext (graph.keyed key))
      (search'.expandNext (graph.keyed key)) := by
  have hfrontier := twin.view_eq (fun _ search => search.frontier) fun _ _ => rfl
  unfold expandNext
  rw [hfrontier]
  cases popped : search.frontier.pop? with
  | none =>
    exact .pure (twin.move (leaves_turn none search.frontier) fun _ trail =>
      serves.finish trail expanding peek popped)
  | some next =>
    obtain ⟨vertex, frontier⟩ := next
    refine Coupled.after (gives.neighbours vertex) fun successors hafter => .pure ?_
    exact twin.move (leaves_turn _ frontier) fun _ trail =>
      serves.turn trail expanding peek popped hafter

theorem leave_coupled (remembers : Remembers first) (counts : Counts K first')
    (visitor : Visitor m V Nat σ) (twin : Twin first first' Trail search search')
    (dropped : Option (Frame V)) (state : σ) :
    Coupled (fun next next' => next.1 = next'.1 ∧
        Session.Alike (Twin first first' Trail) next.2 next'.2)
      (leave (visitor.seeing discovered) dropped { search, state })
      (leave (visitor.seeing discovered) dropped { search := search', state }) := by
  rcases dropped with _ | ⟨_ | vertex, successors⟩
  · exact .pure ⟨rfl, twin, rfl⟩
  · exact .pure ⟨rfl, twin, rfl⟩
  · have hsize : discovered search = discovered search' :=
      twin.paired.size_eq remembers.size_learnAll counts
    simp only [leave, Visitor.seeing, hsize]
    exact Coupled.after (.always _) fun answer _ => .pure ⟨rfl, twin, rfl⟩

variable [Journal m] [Journal.Quiet m] [Render V]

/-- Twins take the same steps. -/
theorem step_coupled (remembers : Remembers first) (counts : Counts K first')
    (serves : Serves key After first Trail first') (gives : graph.Gives After)
    (visitor : Visitor m V Nat σ) (twin : Twin first first' Trail search search') (state : σ) :
    InStep first first' Trail
      (step (graph.keyed key) (visitor.seeing discovered) { search, state })
      (step (graph.keyed key) (visitor.seeing discovered) { search := search', state }) := by
  have hexpanding := twin.view_eq (fun _ search => search.expanding) fun _ _ => rfl
  cases expanding : search.expanding with
  | none =>
    have expanding' : search'.expanding = none := by rw [hexpanding, expanding]
    rw [step_over expanding, step_over expanding']
    exact .pure (Session.matched twin twin.paired none state)
  | some frame =>
    have expanding' : search'.expanding = some frame := by rw [hexpanding, expanding]
    cases peek : frame.peek with
    | none =>
      rw [step_turn_of_space expanding peek, step_turn_of_space expanding' peek]
      refine (expandNext_coupled twin serves gives expanding peek).bind fun next next' hnext => ?_
      refine (leave_coupled remembers counts visitor hnext (some frame) state).bind ?_
      rintro ⟨signal, search, state⟩ ⟨signal', search', state'⟩ ⟨rfl, htwin, rfl⟩
      exact .pure (Session.matched htwin htwin.paired _ _)
    | some target =>
      rcases twin.look remembers fun _ trail => serves.recalls trail expanding peek with
        ⟨old, old', htwin⟩ | ⟨new, new', htwin⟩
      · have hadvance : Twin first first' Trail search.advance search'.advance :=
          htwin.move leaves_advance fun _ h => serves.advance h.1 expanding peek h.2
        rw [step_revisit_of_key rfl expanding peek old,
          step_revisit_of_key rfl expanding' peek old']
        exact hadvance.call (fun n => visitor.revisit frame.vertex target n state) remembers counts
      · have hpush : Twin first first' Trail ((search.advance.learn (key target)).push target)
            ((search'.advance.learn (key target)).push target) :=
          htwin.learn (learns_push _ target) (fun _ h => h.2) fun _ h =>
            serves.enter h.1 expanding peek h.2
        have hlearn : PairedStores first first' (search.advance.learn (key target))
            (search'.advance.learn (key target)) := hpush.paired
        rw [step_enter_of_key rfl expanding peek new, step_enter_of_key rfl expanding' peek new']
        exact hlearn.call (fun n => visitor.enter frame.vertex target n state) remembers counts
          fun state => .pure (Session.matched hpush hpush.paired _ _)

theorem twins (remembers : Remembers first) (counts : Counts K first')
    (serves : Serves key After first Trail first') (gives : graph.Gives After)
    (visitor : Visitor m V Nat σ) :
    (machine (graph.keyed key) (visitor.seeing discovered)).Twins
      (Session.Alike (Twin first first' Trail)) (Session.Alike (PairedStores first first'))
      (machine (graph.keyed key) (visitor.seeing discovered)) := by
  refine .of_step (fun state twin => ?_) (fun _ twin => ?_) fun _ _ => ?_
  · exact step_coupled remembers counts serves gives visitor twin state
  · exact (twin.view_eq (fun _ search => search.expanding.isNone) fun _ _ => rfl).symm
  · exact (Journal.debug_eq _).trans (Journal.debug_eq _).symm

end Step

/-- A store that remembers serves every search. -/
theorem serves_of_remembers (remembers : Remembers first') :
    Serves key (fun _ _ => True) first (fun _ _ => True) first' where
  recalls _ _ _ := remembers.knows_iff _ _
  start _ := trivial
  finish _ _ _ _ := trivial
  turn _ _ _ _ _ := trivial
  advance _ _ _ _ := trivial
  enter _ _ _ _ := trivial

/-- A store that never knows anything serves where no two routes lead to the same form. -/
theorem serves_of_routesApart {graph : StateGraph Id V} (apart : graph.RoutesApart key)
    (remembers : Remembers first) (forgetful : Forgetful K first') :
    Serves key (fun source successors => successors = graph.after source) first
      (fun keys search => ∃ log, Explores graph key (fresh graph first) log search ∧
        keys = (discoveries log).map key) first' := by
  have hnew : ∀ {log search frame target}, Explores graph key (fresh graph first) log search →
      search.expanding = some frame → frame.peek = some target →
      key target ∉ (discoveries log).map key := by
    intro log search frame target explores expanding peek
    refine explores.agenda.not_mem_of_routesApart remembers.faithful apart ?_ peek
    rw [frames_of_expanding expanding]
    exact Multiset.mem_cons_self _ _
  constructor
  case recalls =>
    rintro keys search frame target ⟨log, explores, rfl⟩ expanding peek
    exact iff_of_false (Bool.eq_false_iff.1 (forgetful _ _)) (hnew explores expanding peek)
  case start =>
    rintro successors rfl
    exact ⟨[], .refl, rfl⟩
  case finish =>
    rintro keys search frame ⟨log, explores, rfl⟩ expanding peek popped
    have hturned : search.turned graph = { search with expanding := none } := by
      simp only [turned, popped]
    exact ⟨_, hturned ▸ explores.step (.turn expanding peek), by simp⟩
  case turn =>
    rintro keys search frame vertex frontier successors
      ⟨log, explores, rfl⟩ expanding peek popped rfl
    have hturned : search.turned graph =
        { search with expanding := some (Frame.whole graph (some vertex)), frontier } := by
      simp only [turned, popped]
    exact ⟨_, hturned ▸ explores.step (.turn expanding peek), by simp⟩
  case advance =>
    rintro keys search frame target ⟨log, explores, rfl⟩ expanding peek hmem
    exact absurd hmem (hnew explores expanding peek)
  case enter =>
    rintro keys search frame target ⟨log, explores, rfl⟩ expanding peek hmem
    have new : Store.knows search.known (key target) = false := by
      rw [explores.known_eq, Bool.eq_false_iff, ne_eq, remembers.knows_iff]
      exact hmem
    exact ⟨_, explores.step (.enter expanding peek new), by simp⟩

end BreadthSearch

end StateExplorer
