import DataBinding.Proofs.PathWalks

namespace DataBinding.Graph

variable {g g' g₁ g₂ g₃ : Graph} {written : Option (StoreId × String)} {updated : Option SubscriberId}
  {s t : SubscriberId} {w : Watcher}

theorem readers_congr (stores : g'.stores = g.stores) (registries : g'.registries = g.registries)
    (r : RegistryRef) : g'.readers r = g.readers r := by
  cases r <;> simp only [Graph.readers, store, stores, registries]

theorem subscriber_congr (h : g'.subscribers = g.subscribers) (s : SubscriberId) :
    g'.subscriber s = g.subscriber s := by
  rw [subscriber, subscriber, h]

theorem alive_congr (h : g'.subscribers = g.subscribers) (s : SubscriberId) : g'.alive s = g.alive s := by
  rw [alive, alive, subscriber_congr h]

theorem watcher?_congr (h : g'.subscribers = g.subscribers) (s : SubscriberId) :
    g'.watcher? s = g.watcher? s := by
  rw [watcher?, watcher?, subscriber_congr h]

structure Fits (g : Graph) (w : Watcher) : Prop where
  model : w.model.index < g.models.size
  policy : w.policy = (g.model w.model).options.changeDetection

theorem Fits.mono (h : g.Fits w) (size : g.models.size ≤ g'.models.size)
    (model : ∀ {m}, m.index < g.models.size → g'.model m = g.model m) : g'.Fits w where
  model := Nat.lt_of_lt_of_le h.model size
  policy := by rw [model h.model, h.policy]

/-- Subscribers that are gone stay gone, and registries lose none but those. What a watcher is bound to is
fixed. -/
structure Changes (written : Option (StoreId × String)) (updated : Option SubscriberId) (g g' : Graph) :
    Prop where
  property : ∀ {t k v}, g.property? t k = some v → written ≠ some (t, k) → g'.property? t k = some v
  readers : ∀ {r s}, s ∈ g.readers r → s.index < g.subscribers.size → g'.alive s → s ∈ g'.readers r
  known : ∀ {r s}, s ∈ g'.readers r → s ∈ g.readers r ∨ s.index < g'.subscribers.size
  subscribers : g.subscribers.size ≤ g'.subscribers.size
  role : ∀ {s}, s.index < g.subscribers.size → updated ≠ some s →
    (g'.subscriber s).role = (g.subscriber s).role
  identity : ∀ {s}, s.index < g.subscribers.size → g'.identity s = g.identity s
  alive : ∀ {s}, s.index < g.subscribers.size → g'.alive s → g.alive s
  watched : ∀ {s w}, g'.watcher? s = some w →
    (∃ w₀, g.watcher? s = some w₀ ∧ w = { w₀ with value := w.value }) ∨
      (g.subscribers.size ≤ s.index ∧ g'.Fits w)
  models : g.models.size ≤ g'.models.size
  model : ∀ {m}, m.index < g.models.size → g'.model m = g.model m

namespace Changes

theorem refl (g : Graph) : Changes written updated g g where
  property h _ := h
  readers h _ _ := h
  known h := .inl h
  subscribers := Nat.le_refl _
  role _ _ := rfl
  identity _ := rfl
  alive _ h := h
  watched h := .inl ⟨_, h, rfl⟩
  models := Nat.le_refl _
  model _ := rfl

theorem trans (h : Changes written updated g₁ g₂) (h' : Changes written updated g₂ g₃) :
    Changes written updated g₁ g₃ where
  property hp hw := h'.property (h.property hp hw) hw
  readers hr hs ha := by
    have hs₂ := Nat.lt_of_lt_of_le hs h.subscribers
    exact h'.readers (h.readers hr hs (h'.alive hs₂ ha)) hs₂ ha
  known hr := by
    rcases h'.known hr with hr | hs
    · rcases h.known hr with hr | hs
      · exact .inl hr
      · exact .inr (Nat.lt_of_lt_of_le hs h'.subscribers)
    · exact .inr hs
  subscribers := Nat.le_trans h.subscribers h'.subscribers
  role hs hu := (h'.role (Nat.lt_of_lt_of_le hs h.subscribers) hu).trans (h.role hs hu)
  identity hs := (h'.identity (Nat.lt_of_lt_of_le hs h.subscribers)).trans (h.identity hs)
  alive hs ha := h.alive hs (h'.alive (Nat.lt_of_lt_of_le hs h.subscribers) ha)
  watched hw := by
    rcases h'.watched hw with ⟨w₁, hw₁, he₁⟩ | ⟨hs, fits⟩
    · rcases h.watched hw₁ with ⟨w₀, hw₀, he₀⟩ | ⟨hs, fits⟩
      · refine .inl ⟨w₀, hw₀, ?_⟩
        rw [he₁, he₀]
      · refine .inr ⟨hs, ?_⟩
        have fits := fits.mono h'.models h'.model
        rw [he₁]
        exact ⟨fits.model, fits.policy⟩
    · exact .inr ⟨Nat.le_trans h.subscribers hs, fits⟩
  models := Nat.le_trans h.models h'.models
  model hm := (h'.model (Nat.lt_of_lt_of_le hm h.models)).trans (h.model hm)

theorem watched_of_lt (h : Changes written updated g g') {s : SubscriberId} {w : Watcher}
    (hs : s.index < g.subscribers.size) (hw : g'.watcher? s = some w) :
    ∃ w₀, g.watcher? s = some w₀ ∧ w = { w₀ with value := w.value } := by
  rcases h.watched hw with old | ⟨new, -⟩
  · exact old
  · exact absurd hs (Nat.not_lt_of_le new)

theorem of_enrolled (h : Enrolled g g')
    (known : ∀ {r s}, s ∈ g'.readers r → s ∈ g.readers r ∨ s.index < g.subscribers.size) :
    Changes written updated g g' where
  property hp _ := (h.property _ _).trans hp
  readers hr _ _ := (h.readers _).subset hr
  known hr := h.subscribers ▸ known hr
  subscribers := Nat.le_of_eq (by rw [h.subscribers])
  role _ _ := by rw [subscriber_congr h.subscribers]
  identity _ := by rw [Graph.identity, subscriber_congr h.subscribers, Graph.identity]
  alive _ ha := alive_congr h.subscribers _ ▸ ha
  watched hw := .inl ⟨_, watcher?_congr h.subscribers _ ▸ hw, rfl⟩
  models := Nat.le_of_eq (by rw [h.models])
  model _ := by rw [Graph.model, h.models, Graph.model]

theorem of_same (stores : g'.stores = g.stores) (registries : g'.registries = g.registries)
    (subscribers : g'.subscribers = g.subscribers) (models : g'.models = g.models) :
    Changes written updated g g' where
  property hp _ := by rw [← hp, property?, property?, store, store, stores]
  readers hr _ _ := by rwa [readers_congr stores registries]
  known hr := .inl (by rwa [readers_congr stores registries] at hr)
  subscribers := Nat.le_of_eq (by rw [subscribers])
  role _ _ := by rw [subscriber_congr subscribers]
  identity _ := by rw [Graph.identity, subscriber_congr subscribers, Graph.identity]
  alive _ ha := alive_congr subscribers _ ▸ ha
  watched hw := .inl ⟨_, watcher?_congr subscribers _ ▸ hw, rfl⟩
  models := Nat.le_of_eq (by rw [models])
  model _ := by rw [Graph.model, models, Graph.model]

end Changes

theorem exists_of_alive (h : g.alive s) : s.index < g.subscribers.size := by
  apply Nat.lt_of_not_le
  intro hs
  have : g.subscriber s = default := Table.get_of_size_le _ hs
  simp [alive, this, default] at h

theorem exists_of_watcher? (h : g.watcher? s = some w) : s.index < g.subscribers.size := by
  apply Nat.lt_of_not_le
  intro hs
  have : g.subscriber s = default := Table.get_of_size_le _ hs
  simp [watcher?, this, default] at h

theorem changes_holders (g : Graph) (s : SubscriberId) (count : Nat → Nat)
    (gone : 0 < count (g.subscriber s).holders → 0 < (g.subscriber s).holders) :
    Changes written updated g (g.modifySubscriber s fun d => { d with holders := count d.holders }) := by
  have readers (r : RegistryRef) :
      (g.modifySubscriber s fun d => { d with holders := count d.holders }).readers r = g.readers r := by
    cases r <;> rfl
  have role (t : SubscriberId) :
      ((g.modifySubscriber s fun d => { d with holders := count d.holders }).subscriber t).role =
        (g.subscriber t).role := by
    rw [subscriber_modifySubscriber]
    split <;> rfl
  exact {
    property := fun h _ => h
    readers := fun h _ _ => readers _ ▸ h
    known := fun h => .inl (readers _ ▸ h)
    subscribers := Nat.le_of_eq (size_modifySubscriber _ _ _).symm
    role := fun _ _ => role _
    identity := fun _ => by
      rw [identity, subscriber_modifySubscriber]
      split <;> rfl
    alive := fun {t} _ ha => by
      simp only [alive, decide_eq_true_eq, subscriber_modifySubscriber] at ha ⊢
      split at ha
      · next h => obtain ⟨rfl, -⟩ := h; exact gone ha
      · exact ha
    watched := fun {t w} hw => .inl ⟨w, by rwa [watcher?, role t] at hw, rfl⟩
    models := Nat.le_refl _
    model := fun _ => rfl }

theorem changes_retain (h : g.alive s) : Changes written updated g (g.retain s) :=
  changes_holders g s (· + 1) fun _ => by simpa [alive] using h

theorem changes_release (g : Graph) (s : SubscriberId) : Changes written updated g (g.release s) := by
  have released :
      Changes written updated g (g.modifySubscriber s fun d => { d with holders := d.holders - 1 }) :=
    changes_holders g s (· - 1) fun h => by omega
  unfold release
  dsimp only
  split
  · split
    · exact released.trans (.of_same rfl rfl rfl rfl)
    · exact released
  · exact released

@[simp] theorem get?_install (g : Graph) (s t : StoreId) (key k : String) (v : Value) :
    ((g.install s key v).store t).properties.get? k =
      if t = s ∧ s.index < g.stores.size ∧ k = key then
        some { value := v, readers := (((g.store t).properties.get? k).map Property.readers).getD [] }
      else (g.store t).properties.get? k := by
  simp only [install, store_modifyStore]
  by_cases ht : t = s ∧ s.index < g.stores.size
  · simp only [ht, and_self, if_true, true_and, Fields.get?_set]
    by_cases hk : k = key <;> simp [hk]
  · simp only [if_neg ht]
    rw [if_neg fun h => ht ⟨h.1, h.2.1⟩]

@[simp] theorem property?_install (g : Graph) (s t : StoreId) (key k : String) (v : Value) :
    (g.install s key v).property? t k =
      if t = s ∧ s.index < g.stores.size ∧ k = key then some v else g.property? t k := by
  rw [property?, get?_install]
  split <;> rfl

theorem walk?_of_install {a b u : StoreId} {key : String} {keys : List String} {v : Value}
    (leaf : ∀ t, v ≠ .object t) (walk : (g.install u key v).walk? a keys = some b) :
    g.walk? a keys = some b := by
  induction keys generalizing a with
  | nil => exact walk
  | cons k keys ih =>
    obtain ⟨next, hp, walk⟩ := exists_of_walk?_cons walk
    have found := property?_of_peek hp
    rw [property?_install] at found
    split at found
    · cases found
      exact absurd rfl (leaf next)
    · rw [walk?, peek_of_property? found]
      exact ih walk

@[simp] theorem readers_install (g : Graph) (s : StoreId) (key : String) (v : Value) (r : RegistryRef) :
    (g.install s key v).readers r = g.readers r := by
  cases r with
  | free r => rfl
  | property t k =>
    simp only [Graph.readers, get?_install]
    split <;> rfl

theorem changes_install (g : Graph) (s : StoreId) (key : String) (v : Value) :
    Changes (some (s, key)) updated g (g.install s key v) where
  property hp hw := by
    simp only [property?, get?_install]
    rw [if_neg fun h => hw (by rw [h.1, h.2.2])]
    exact hp
  readers h _ _ := by rwa [readers_install]
  known h := .inl (by rwa [readers_install] at h)
  subscribers := Nat.le_refl _
  role _ _ := rfl
  identity _ := rfl
  alive _ h := h
  watched h := .inl ⟨_, h, rfl⟩
  models := Nat.le_refl _
  model _ := rfl

@[simp] theorem mem_live {r : RegistryRef} : s ∈ g.live r ↔ s ∈ g.readers r ∧ g.alive s := by
  simp [live]

@[simp] theorem readers_prune (g : Graph) (r r' : RegistryRef) :
    (g.prune r).readers r' = if r' = r then g.live r else g.readers r' := by
  by_cases h : g.HasRegistry r
  · exact readers_setReaders h _ _
  · rw [prune, setReaders_of_not_hasRegistry h]
    split
    · next hr => subst hr; simp [live, readers_eq_nil h]
    · rfl

@[simp] theorem subscribers_prune (g : Graph) (r : RegistryRef) : (g.prune r).subscribers = g.subscribers := by
  cases r <;> rfl

theorem changes_prune (g : Graph) (r : RegistryRef) : Changes written updated g (g.prune r) where
  property hp _ := (property?_setReaders _ _ _ _ _).trans hp
  readers hr _ ha := by
    rw [readers_prune]
    rw [alive_congr (subscribers_prune g r)] at ha
    split
    · next he => subst he; exact mem_live.2 ⟨hr, ha⟩
    · exact hr
  known hr := by
    rw [readers_prune] at hr
    split at hr
    · next he => subst he; exact .inl (mem_live.1 hr).1
    · exact .inl hr
  subscribers := Nat.le_of_eq (by simp)
  role _ _ := by rw [subscriber_congr (subscribers_prune g r)]
  identity _ := by rw [Graph.identity, subscriber_congr (subscribers_prune g r), Graph.identity]
  alive _ ha := alive_congr (subscribers_prune g r) _ ▸ ha
  watched hw := .inl ⟨_, watcher?_congr (subscribers_prune g r) _ ▸ hw, rfl⟩
  models := Nat.le_of_eq (by cases r <;> rfl)
  model _ := by cases r <;> rfl

theorem changes_readPath (g : Graph) {reader : Option SubscriberId} (s : StoreId) (path : Path)
    (known : ∀ t ∈ reader, t.index < g.subscribers.size) :
    Changes written updated g (g.readPath reader s path).2 := by
  apply Changes.of_enrolled (enrolled_readPath _ _ _ _)
  intro r t ht
  rcases mem_readers_of_readAlong ht with h | h
  · exact .inl h
  · exact .inr (known t h)

theorem changes_register (g : Graph) (r : RegistryRef) (h : s.index < g.subscribers.size) :
    Changes written updated g (g.register r s) := by
  apply Changes.of_enrolled (enrolled_register _ _ _)
  intro r t ht
  rcases mem_readers_of_register ht with ht | rfl
  · exact .inl ht
  · exact .inr h

theorem readers_of_createStore (pairs : List (String × Value)) (key : String) :
    ∀ p ∈ (Fields.ofPairs (pairs.map fun (key, v) => (key, ({ value := v } : Property)))).get? key,
      p.readers = [] := by
  apply List.foldlRecOn (motive := fun fields : Fields Property => ∀ p ∈ fields.get? key, p.readers = [])
  · simp [Fields.get?]
  · intro fields h pair mem p hp
    obtain ⟨⟨name, v⟩, -, rfl⟩ := List.mem_map.1 mem
    rw [Fields.get?_set] at hp
    split at hp
    · rw [Option.mem_def, Option.some.injEq] at hp
      subst hp
      rfl
    · exact h p hp

theorem readers_ofPairs (pairs : List (String × Value)) (key : String) :
    (((Fields.ofPairs (pairs.map fun (key, v) => (key, ({ value := v } : Property)))).get? key).map
      Property.readers).getD [] = [] := by
  have unread := readers_of_createStore pairs key
  generalize (Fields.ofPairs _).get? key = found at unread
  cases found with
  | none => rfl
  | some p => exact unread p rfl

theorem changes_createStore (g : Graph) (pairs : List (String × Value)) :
    Changes written updated g (g.createStore pairs).2 := by
  have store_of_ne {t : StoreId} (h : t.index ≠ g.stores.size) :
      (g.createStore pairs).2.store t = g.store t := by
    simp [store, createStore, h]
  have old {t : StoreId} (h : t.index = g.stores.size) : g.store t = {} :=
    store_of_size_le (Nat.le_of_eq h.symm)
  exact {
    property := fun {t k v} hp _ => by
      by_cases ht : t.index = g.stores.size
      · simp [property?, old ht, Fields.get?] at hp
      · rwa [property?, store_of_ne ht]
    readers := fun {r s} hr _ _ => by
      cases r with
      | free r => exact hr
      | property t k =>
        by_cases ht : t.index = g.stores.size
        · simp [Graph.readers, old ht, Fields.get?] at hr
        · rwa [Graph.readers, store_of_ne ht]
    known := fun {r s} hr => by
      cases r with
      | free r => exact .inl hr
      | property t k =>
        by_cases ht : t.index = g.stores.size
        · simp only [Graph.readers, store, createStore, Table.get_add, ht, if_true] at hr
          rw [readers_ofPairs] at hr
          cases hr
        · exact .inl (by rwa [Graph.readers, store_of_ne ht] at hr)
    subscribers := Nat.le_refl _
    role := fun _ _ => rfl
    identity := fun _ => rfl
    alive := fun _ h => h
    watched := fun h => .inl ⟨_, h, rfl⟩
    models := Nat.le_refl _
    model := fun _ => rfl }

theorem changes_createRegistry (g : Graph) : Changes written updated g g.createRegistry.2 := by
  have readers (r : RegistryRef) : g.createRegistry.2.readers r = g.readers r := by
    cases r with
    | property t k => rfl
    | free r =>
      simp only [Graph.readers, createRegistry, Table.get_add]
      split
      · next h => exact (Table.get_of_size_le _ (Nat.le_of_eq h.symm)).symm
      · rfl
  exact {
    property := fun h _ => h
    readers := fun h _ _ => readers _ ▸ h
    known := fun h => .inl (readers _ ▸ h)
    subscribers := Nat.le_refl _
    role := fun _ _ => rfl
    identity := fun _ => rfl
    alive := fun _ h => h
    watched := fun h => .inl ⟨_, h, rfl⟩
    models := Nat.le_refl _
    model := fun _ => rfl }

theorem changes_createModel (g : Graph) (m : ViewModel) : Changes written updated g (g.createModel m).2 := by
  have readers (r : RegistryRef) : (g.createModel m).2.readers r = g.readers r := by cases r <;> rfl
  exact {
    property := fun h _ => h
    readers := fun h _ _ => readers _ ▸ h
    known := fun h => .inl (readers _ ▸ h)
    subscribers := Nat.le_refl _
    role := fun _ _ => rfl
    identity := fun _ => rfl
    alive := fun _ h => h
    watched := fun h => .inl ⟨_, h, rfl⟩
    models := by simp [createModel]
    model := fun hm => by simp [model, createModel, Nat.ne_of_lt hm] }

theorem watcher?_of_createSubscriber {i : Option SubscriberId} {callback : CallbackId}
    (h : (g.createSubscriber i (.call callback)).2.watcher? s = some w) : g.watcher? s = some w := by
  rw [watcher?, subscriber_createSubscriber] at h
  by_cases hs : s.index = g.subscribers.size
  · simp [hs] at h
  · rw [if_neg hs] at h
    exact h

theorem changes_createSubscriber (g : Graph) (i : Option SubscriberId) (callback : CallbackId) :
    Changes written updated g (g.createSubscriber i (.call callback)).2 := by
  have readers (r : RegistryRef) : (g.createSubscriber i (.call callback)).2.readers r = g.readers r := by
    cases r <;> rfl
  have old {t : SubscriberId} (h : t.index < g.subscribers.size) :
      (g.createSubscriber i (.call callback)).2.subscriber t = g.subscriber t := by
    simp [Nat.ne_of_lt h]
  exact {
    property := fun h _ => h
    readers := fun h _ _ => readers _ ▸ h
    known := fun h => .inl (readers _ ▸ h)
    subscribers := by simp [createSubscriber]
    role := fun hs _ => by rw [old hs]
    identity := fun hs => by rw [identity, old hs, identity]
    alive := fun hs ha => by rwa [alive, old hs] at ha
    watched := fun hw => .inl ⟨_, watcher?_of_createSubscriber hw, rfl⟩
    models := Nat.le_refl _
    model := fun _ => rfl }

@[simp] theorem watcher?_setWatched (g : Graph) (s t : SubscriberId) (w : Watcher) (v : Value) :
    (g.setWatched s w v).watcher? t =
      if t = s ∧ s.index < g.subscribers.size then some { w with value := v } else g.watcher? t := by
  simp only [watcher?, setWatched, subscriber_modifySubscriber]
  by_cases h : t = s ∧ s.index < g.subscribers.size
  · simp only [if_pos h]
  · simp only [if_neg h]

theorem changes_setWatched (h : g.watcher? s = some w) (v : Value) :
    Changes written (some s) g (g.setWatched s w v) := by
  have readers (r : RegistryRef) : (g.setWatched s w v).readers r = g.readers r := by cases r <;> rfl
  exact {
    property := fun h _ => h
    readers := fun h _ _ => readers _ ▸ h
    known := fun h => .inl (readers _ ▸ h)
    subscribers := Nat.le_of_eq (size_modifySubscriber _ _ _).symm
    role := fun {t} _ hu => by
      rw [setWatched, subscriber_modifySubscriber, if_neg]
      exact fun ht => hu (by rw [ht.1])
    identity := fun _ => by
      rw [identity, setWatched, subscriber_modifySubscriber]
      split <;> rfl
    alive := fun _ ha => by
      rw [alive, setWatched, subscriber_modifySubscriber] at ha
      split at ha <;> exact ha
    watched := fun {t w'} hw => by
      rw [watcher?_setWatched] at hw
      split at hw
      · next ht =>
        obtain ⟨rfl, -⟩ := ht
        cases hw
        exact .inl ⟨w, h, rfl⟩
      · exact .inl ⟨w', hw, rfl⟩
    models := Nat.le_refl _
    model := fun _ => rfl }

theorem enrolled_evaluate (g : Graph) (s : SubscriberId) (w : Watcher) : Enrolled g (g.evaluate s w).2 :=
  enrolled_readPath _ _ _ _

@[simp] theorem evaluate_fst (g : Graph) (s : SubscriberId) (w : Watcher) : (g.evaluate s w).1 = g.current w :=
  readPath_fst _ _ _ _

theorem changes_evaluate (w : Watcher) (h : s.index < g.subscribers.size) :
    Changes written updated g (g.evaluate s w).2 := by
  apply changes_readPath
  intro t ht
  cases ht
  exact h

def renew (g : Graph) (s : SubscriberId) (w : Watcher) : Graph :=
  (g.evaluate s w).2.setWatched s w (g.current w)

theorem refresh_cases (g : Graph) (s : SubscriberId) (w : Watcher) :
    (w.policy.same (g.current w) w.value = true ∧ g.refresh s w = (none, (g.evaluate s w).2)) ∨
      (w.policy.same (g.current w) w.value = false ∧
        g.refresh s w = (some (g.current w, w.value), g.renew s w)) := by
  have hv := evaluate_fst g s w
  unfold refresh renew
  generalize g.evaluate s w = r at hv
  obtain ⟨v, g'⟩ := r
  dsimp only at hv ⊢
  subst hv
  cases w.policy.same (g.current w) w.value <;> simp

theorem changes_renew (h : g.watcher? s = some w) : Changes written (some s) g (g.renew s w) := by
  have hw : (g.evaluate s w).2.watcher? s = some w := by
    rwa [watcher?_congr (enrolled_evaluate g s w).subscribers]
  exact (changes_evaluate w (exists_of_watcher? h)).trans (changes_setWatched hw _)

end DataBinding.Graph
