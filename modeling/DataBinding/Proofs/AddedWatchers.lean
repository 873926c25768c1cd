import DataBinding.Proofs.GraphChanges
import DataBinding.Proofs.NodeContent

namespace DataBinding.Graph

variable {g g' g₁ g₂ g₃ : Graph} {written : Option (StoreId × String)} {updated : Option SubscriberId}
  {s t : SubscriberId} {w : Watcher}

/-- One more watcher, which holds what it has found and is kept once. -/
structure Gains (g g' : Graph) (s : SubscriberId) (w : Watcher) : Prop where
  name : s = ⟨g.subscribers.size⟩
  property : ∀ t k, g'.property? t k = g.property? t k
  size : g'.subscribers.size = g.subscribers.size + 1
  made : g'.subscriber s = ⟨s, 1, .watch w⟩
  held : w.value = g.current w
  others : ∀ t, t ≠ s → g'.subscriber t = g.subscriber t
  readers : ∀ r, g.readers r <+: g'.readers r
  known : ∀ {r t}, t ∈ g'.readers r → t ∈ g.readers r ∨ t = s
  listed : (∀ r, ∀ t ∈ g.readers r, g.identity t ≠ s) →
    ∀ p ∈ g.reads (g.origin w) w.path, s ∈ g'.readers (.property p.1 p.2)
  models : g'.models = g.models
  compilers : g'.compilers = g.compilers
  forest : g'.forest = match w.reaction.target? with
    | some n => g.forest.retain n
    | none => g.forest

def newWatcher (g : Graph) (m : ModelId) (path : Path) (reaction : Reaction) : Watcher where
  model := m
  path
  policy := (g.model m).options.changeDetection
  value := g.valueAt (g.model m).data path
  reaction

def blankWatcher (g : Graph) (m : ModelId) (path : Path) (reaction : Reaction) : Watcher :=
  { model := m, path, policy := (g.model m).options.changeDetection, reaction }

def welcome (g : Graph) (w : Watcher) : Graph :=
  { (g.createSubscriber none (.watch w)).2 with forest := match w.reaction.target? with
    | some n => g.forest.retain n
    | none => g.forest }

/-- A watcher reads when it is there already, and then holds what it has found. -/
theorem createWatcher_eq (g : Graph) (m : ModelId) (path : Path) (reaction : Reaction) :
    g.createWatcher m path reaction = (⟨g.subscribers.size⟩,
      ((g.welcome (g.blankWatcher m path reaction)).evaluate ⟨g.subscribers.size⟩
        (g.blankWatcher m path reaction)).2.setWatched ⟨g.subscribers.size⟩ (g.blankWatcher m path reaction)
        ((g.welcome (g.blankWatcher m path reaction)).evaluate ⟨g.subscribers.size⟩
          (g.blankWatcher m path reaction)).1) := by
  cases ht : reaction.target? <;> simp only [createWatcher, welcome, blankWatcher, ht] <;> rfl

@[simp] theorem subscriber_welcome (g : Graph) (w : Watcher) (t : SubscriberId) :
    (g.welcome w).subscriber t =
      if t.index = g.subscribers.size then ⟨⟨g.subscribers.size⟩, 1, .watch w⟩ else g.subscriber t :=
  subscriber_createSubscriber g none (.watch w) t

theorem subscriber_welcome_of_ne (g : Graph) (w : Watcher) (ht : t ≠ ⟨g.subscribers.size⟩) :
    (g.welcome w).subscriber t = g.subscriber t := by
  rw [subscriber_welcome, if_neg]
  intro same
  exact ht (by cases t; exact congrArg SubscriberId.mk same)

@[simp] theorem identity_welcome (g : Graph) (w : Watcher) :
    (g.welcome w).identity ⟨g.subscribers.size⟩ = ⟨g.subscribers.size⟩ := by
  rw [identity, subscriber_welcome, if_pos rfl]

@[simp]
theorem readers_welcome (g : Graph) (w : Watcher) (r : RegistryRef) : (g.welcome w).readers r = g.readers r := by
  cases r <;> rfl

theorem distinct_welcome (w : Watcher) (distinct : ∀ r, ∀ t ∈ g.readers r, g.identity t ≠ ⟨g.subscribers.size⟩) :
    (g.welcome w).Distinct ⟨g.subscribers.size⟩ := by
  intro r t ht same
  rw [readers_welcome] at ht
  rw [identity_welcome] at same
  apply Classical.byContradiction
  intro other
  rw [identity, subscriber_welcome_of_ne g w other] at same
  exact distinct r t ht same

theorem gains_createWatcher (g : Graph) (m : ModelId) (path : Path) (reaction : Reaction) :
    Gains g (g.createWatcher m path reaction).2 (g.createWatcher m path reaction).1
      (g.newWatcher m path reaction) := by
  let w := g.blankWatcher m path reaction
  let s : SubscriberId := ⟨g.subscribers.size⟩
  let g₂ := g.welcome w
  have read := enrolled_evaluate g₂ s w
  have same (t : StoreId) (k : String) : g₂.property? t k = g.property? t k := rfl
  have value : (g₂.evaluate s w).1 = g.valueAt (g.model m).data path := by
    rw [evaluate_fst]
    exact valueAt_congr same _ _
  have subscriber (t : SubscriberId) : (g₂.evaluate s w).2.subscriber t = g₂.subscriber t :=
    subscriber_congr read.subscribers t
  have size : (g₂.evaluate s w).2.subscribers.size = g.subscribers.size + 1 := by
    rw [read.subscribers]
    exact Table.size_add _ _
  have readers (r : RegistryRef) : ((g₂.evaluate s w).2.setWatched s w (g₂.evaluate s w).1).readers r =
      (g₂.evaluate s w).2.readers r := by cases r <;> rfl
  rw [createWatcher_eq]
  exact {
    name := rfl
    property := fun t k => read.property t k
    size := by rw [setWatched, size_modifySubscriber, size]
    made := by
      rw [setWatched, subscriber_modifySubscriber, if_pos ⟨rfl, by rw [size]; exact Nat.lt_succ_self _⟩,
        subscriber, subscriber_welcome, if_pos rfl, value]
      rfl
    held := rfl
    others := fun t ht => by
      rw [setWatched, subscriber_modifySubscriber, if_neg (fun h => ht h.1), subscriber,
        subscriber_welcome_of_ne g w ht]
    readers := fun r => by
      rw [readers, ← readers_welcome g w]
      exact read.readers r
    known := fun {r t} ht => by
      rw [readers] at ht
      rcases mem_readers_of_readAlong ht with ht | ht
      · exact .inl (readers_welcome g w r ▸ ht)
      · exact .inr (Option.some.inj ht).symm
    listed := fun distinct p hp => by
      rw [readers]
      apply mem_readers_readAlong (g := g₂) (s := g.origin w) (distinct_welcome w distinct)
      exact (readsAlong_congr same _ _ _).symm ▸ hp
    models := read.models
    compilers := read.compilers
    forest := read.forest }

namespace Gains

variable (h : Gains g g' s w)
include h

theorem watcher?_new : g'.watcher? s = some w := by
  simp [watcher?, h.made]

theorem ne_of_lt (ht : t.index < g.subscribers.size) : t ≠ s := by
  rintro rfl
  rw [h.name] at ht
  exact Nat.lt_irrefl _ ht

theorem eq_of_new (hs : g.subscribers.size ≤ t.index) (ht : t.index < g'.subscribers.size) : t = s := by
  rw [h.size] at ht
  rw [h.name]
  cases t
  exact congrArg SubscriberId.mk (Nat.le_antisymm (Nat.le_of_lt_succ ht) hs)

theorem eq_of_watcher? {w' : Watcher} (hs : g.subscribers.size ≤ t.index) (hw : g'.watcher? t = some w') :
    t = s ∧ w' = w := by
  have same := h.eq_of_new hs (exists_of_watcher? hw)
  subst same
  rw [h.watcher?_new] at hw
  exact ⟨rfl, (Option.some.inj hw).symm⟩

theorem keeps : Forest.Keeps g.forest g'.forest := by
  rw [h.forest]
  split
  · exact Forest.keeps_retain _ _
  · exact .refl _

end Gains

theorem Gains.of_records {g₀ : Graph} {records : Table Value} (h : Gains g₀ g' s w)
    (same : g₀ = { g with records }) : Gains g g' s w := by
  have property (t : StoreId) (k : String) : g₀.property? t k = g.property? t k := by rw [same]; rfl
  have readers (r : RegistryRef) : g₀.readers r = g.readers r := by rw [same]; exact readers_congr rfl rfl r
  have origin : g₀.origin w = g.origin w := by rw [same]; rfl
  have subscriber (t : SubscriberId) : g₀.subscriber t = g.subscriber t := by rw [same]; rfl
  exact {
    name := by rw [h.name, same]
    property := fun t k => (h.property t k).trans (property t k)
    size := by rw [h.size, same]
    made := h.made
    held := by rw [h.held, current, origin, valueAt_congr property, current]
    others := fun t ht => (h.others t ht).trans (subscriber t)
    readers := fun r => readers r ▸ h.readers r
    known := fun {r t} ht => readers r ▸ h.known ht
    listed := fun distinct p hp => by
      apply h.listed
      · intro r t ht
        rw [readers] at ht
        rw [identity, subscriber]
        exact distinct r t ht
      · rwa [origin, reads_congr property]
    models := by rw [h.models, same]
    compilers := by rw [h.compilers, same]
    forest := by rw [h.forest, same] }

@[simp] theorem records_createWatcher (g : Graph) (m : ModelId) (path : Path) (reaction : Reaction) :
    (g.createWatcher m path reaction).2.records = g.records := by
  rw [createWatcher_eq]
  exact (enrolled_evaluate _ _ _).records

/-- Whether a subscriber is a watcher that was made from here and has not been updated since. -/
structure Fresh (g g' : Graph) (s : SubscriberId) (w : Watcher) : Prop where
  made : g'.subscriber s = ⟨s, 1, .watch w⟩
  fits : g.Fits w
  held : w.value = g.current w
  listed : (∀ r, ∀ t ∈ g.readers r, t.index < g.subscribers.size) →
    (∀ t, t.index < g.subscribers.size → g.identity t ≠ s) →
    ∀ p ∈ g.reads (g.origin w) w.path, s ∈ g'.readers (.property p.1 p.2)

structure Grows (g g' : Graph) : Prop where
  property : ∀ t k, g'.property? t k = g.property? t k
  size : g.subscribers.size ≤ g'.subscribers.size
  old : ∀ {s}, s.index < g.subscribers.size → g'.subscriber s = g.subscriber s
  fresh : ∀ {s}, g.subscribers.size ≤ s.index → s.index < g'.subscribers.size → ∃ w, Fresh g g' s w
  readers : ∀ r, g.readers r <+: g'.readers r
  known : ∀ {r s}, s ∈ g'.readers r →
    s ∈ g.readers r ∨ (g.subscribers.size ≤ s.index ∧ s.index < g'.subscribers.size)
  models : g'.models = g.models

theorem origin_congr (h : g'.models = g.models) (w : Watcher) : g'.origin w = g.origin w := by
  rw [origin, origin, model, model, h]

theorem current_congr (property : ∀ t k, g'.property? t k = g.property? t k) (models : g'.models = g.models)
    (w : Watcher) : g'.current w = g.current w := by
  rw [current, origin_congr models, valueAt_congr property, current]

namespace Fresh

theorem watcher? (h : Fresh g g' s w) : g'.watcher? s = some w := by
  simp [Graph.watcher?, h.made]

theorem unique {w' : Watcher} (h : Fresh g g' s w) (h' : g'.watcher? s = some w') : w' = w := by
  rw [h.watcher?] at h'
  exact (Option.some.inj h').symm

end Fresh

namespace Grows

theorem of_same (stores : g'.stores = g.stores) (registries : g'.registries = g.registries)
    (subscribers : g'.subscribers = g.subscribers) (models : g'.models = g.models) : Grows g g' where
  property _ _ := by rw [property?, property?, store, store, stores]
  size := Nat.le_of_eq (by rw [subscribers])
  old _ := subscriber_congr subscribers _
  fresh h h' := absurd h' (Nat.not_lt_of_le (subscribers ▸ h))
  readers _ := by simp only [readers_congr stores registries, List.prefix_rfl]
  known h := .inl (readers_congr stores registries _ ▸ h)
  models := models

theorem of_gains (h : Gains g g' s w) (fits : g.Fits w) : Grows g g' where
  property := h.property
  size := by rw [h.size]; exact Nat.le_succ _
  old ht := h.others _ (h.ne_of_lt ht)
  fresh {t} ht ht' := by
    have same := h.eq_of_new ht ht'
    subst same
    exact ⟨w, h.made, fits, h.held, fun known distinct => h.listed fun r t ht => distinct t (known r t ht)⟩
  readers := h.readers
  known hr := by
    rcases h.known hr with hr | rfl
    · exact .inl hr
    · refine .inr ⟨?_, ?_⟩
      · exact Nat.le_of_eq (by rw [h.name])
      · rw [h.size, h.name]
        exact Nat.lt_succ_self _
  models := h.models

theorem watcher? (h : Grows g g') (hs : s.index < g.subscribers.size) : g'.watcher? s = g.watcher? s := by
  rw [Graph.watcher?, h.old hs, Graph.watcher?]

theorem identity (h : Grows g g') (hs : s.index < g.subscribers.size) : g'.identity s = g.identity s := by
  rw [Graph.identity, h.old hs, Graph.identity]

theorem fresh_left (h' : Grows g₂ g₃) (hs : s.index < g₂.subscribers.size)
    (fresh : Fresh g₁ g₂ s w) : Fresh g₁ g₃ s w where
  made := (h'.old hs).trans fresh.made
  fits := fresh.fits
  held := fresh.held
  listed known distinct p hp := (h'.readers _).subset (fresh.listed known distinct p hp)

theorem fresh_right (h : Grows g₁ g₂) (hs : g₂.subscribers.size ≤ s.index) (fresh : Fresh g₂ g₃ s w) :
    Fresh g₁ g₃ s w where
  made := fresh.made
  fits := by
    have model (m : ModelId) : g₂.model m = g₁.model m := by rw [Graph.model, h.models, Graph.model]
    exact ⟨h.models ▸ fresh.fits.model, (fresh.fits.policy).trans (by rw [model])⟩
  held := by rw [fresh.held, current_congr h.property h.models]
  listed known distinct p hp := by
    apply fresh.listed
    · intro r t ht
      rcases h.known ht with ht | ht
      · exact Nat.lt_of_lt_of_le (known r t ht) h.size
      · exact ht.2
    · intro t ht
      by_cases hold : t.index < g₁.subscribers.size
      · rw [h.identity hold]
        exact distinct t hold
      · -- a watcher made on the way has an identity of its own
        obtain ⟨w', hw'⟩ := h.fresh (Nat.le_of_not_lt hold) ht
        rw [Graph.identity, hw'.made]
        rintro rfl
        exact Nat.lt_irrefl _ (Nat.lt_of_lt_of_le ht hs)
    · rwa [origin_congr h.models, reads_congr h.property]

theorem trans (h : Grows g₁ g₂) (h' : Grows g₂ g₃) : Grows g₁ g₃ where
  property t k := (h'.property t k).trans (h.property t k)
  size := Nat.le_trans h.size h'.size
  old hs := (h'.old (Nat.lt_of_lt_of_le hs h.size)).trans (h.old hs)
  fresh {s} hs hs' := by
    by_cases hm : s.index < g₂.subscribers.size
    · obtain ⟨w, hw⟩ := h.fresh hs hm
      exact ⟨w, fresh_left h' hm hw⟩
    · obtain ⟨w, hw⟩ := h'.fresh (Nat.le_of_not_lt hm) hs'
      exact ⟨w, h.fresh_right (Nat.le_of_not_lt hm) hw⟩
  readers r := (h.readers r).trans (h'.readers r)
  known hr := by
    rcases h'.known hr with hr | ⟨hs, hs'⟩
    · rcases h.known hr with hr | ⟨hs, hs'⟩
      · exact .inl hr
      · exact .inr ⟨hs, Nat.lt_of_lt_of_le hs' h'.size⟩
    · exact .inr ⟨Nat.le_trans h.size hs, hs'⟩
  models := h'.models.trans h.models

theorem changes (h : Grows g g') : Changes written updated g g' where
  property hp _ := (h.property _ _).trans hp
  readers hr _ _ := (h.readers _).subset hr
  known hr := by
    rcases h.known hr with hr | ⟨-, hs⟩
    · exact .inl hr
    · exact .inr hs
  subscribers := h.size
  role hs _ := by rw [h.old hs]
  identity := h.identity
  alive hs ha := by rwa [alive, h.old hs] at ha
  watched {s w} hw := by
    by_cases hs : s.index < g.subscribers.size
    · refine .inl ⟨w, ?_, rfl⟩
      rwa [h.watcher? hs] at hw
    · obtain ⟨w', hw'⟩ := h.fresh (Nat.le_of_not_lt hs) (exists_of_watcher? hw)
      cases hw'.unique hw
      have model {m : ModelId} : g'.model m = g.model m := by rw [Graph.model, h.models, Graph.model]
      exact .inr ⟨Nat.le_of_not_lt hs, hw'.fits.mono (Nat.le_of_eq (by rw [h.models])) fun _ => model⟩
  models := Nat.le_of_eq (by rw [h.models])
  model _ := by rw [model, h.models, model]

end Grows

end DataBinding.Graph
