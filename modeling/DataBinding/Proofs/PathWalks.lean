import DataBinding.Graph.Watcher

namespace DataBinding.Graph

variable {g g' : Graph} {reader : Option SubscriberId} {s : StoreId} {last key : String} {keys : List String}

def readsAlong (g : Graph) (s : StoreId) (last : String) : List String → List (StoreId × String)
  | [] => if (g.property? s last).isSome then [(s, last)] else []
  | key :: keys => match g.property? s key with
    | none => []
    | some (.object next) => (s, key) :: g.readsAlong next last keys
    | some _ => [(s, key)]

def missingAlong? (g : Graph) (s : StoreId) (last : String) : List String → Option (StoreId × String)
  | [] => if (g.property? s last).isSome then none else some (s, last)
  | key :: keys => match g.property? s key with
    | none => some (s, key)
    | some (.object next) => g.missingAlong? next last keys
    | some _ => none

def reads (g : Graph) (s : StoreId) (path : Path) : List (StoreId × String) :=
  g.readsAlong s path.last path.parents

def missing? (g : Graph) (s : StoreId) (path : Path) : Option (StoreId × String) :=
  g.missingAlong? s path.last path.parents

def origin (g : Graph) (w : Watcher) : StoreId := (g.model w.model).data

def current (g : Graph) (w : Watcher) : Value := g.valueAt (g.origin w) w.path

structure Enrolled (g g' : Graph) : Prop where
  property : ∀ t k, g'.property? t k = g.property? t k
  readers : ∀ r, g.readers r <+: g'.readers r
  subscribers : g'.subscribers = g.subscribers
  models : g'.models = g.models
  records : g'.records = g.records
  forest : g'.forest = g.forest
  compilers : g'.compilers = g.compilers

namespace Enrolled

theorem refl (g : Graph) : Enrolled g g :=
  ⟨fun _ _ => rfl, fun _ => List.prefix_refl _, rfl, rfl, rfl, rfl, rfl⟩

theorem trans {g₁ g₂ g₃ : Graph} (h : Enrolled g₁ g₂) (h' : Enrolled g₂ g₃) : Enrolled g₁ g₃ where
  property t k := (h'.property t k).trans (h.property t k)
  readers r := (h.readers r).trans (h'.readers r)
  subscribers := h'.subscribers.trans h.subscribers
  models := h'.models.trans h.models
  records := h'.records.trans h.records
  forest := h'.forest.trans h.forest
  compilers := h'.compilers.trans h.compilers

end Enrolled

theorem property?_eq_none (h : ¬ g.hasKey s key = true) : g.property? s key = none := by
  rw [hasKey, Fields.contains, Bool.not_eq_true, Option.isSome_eq_false_iff, Option.isNone_iff_eq_none] at h
  rw [property?, h]
  rfl

@[simp] theorem property?_setReaders (g : Graph) (readers : List SubscriberId) (r : RegistryRef) (t : StoreId)
    (k : String) : (g.setReaders readers r).property? t k = g.property? t k := by
  cases r with
  | free r => rfl
  | property s key =>
    simp only [setReaders, property?, store_modifyStore]
    split
    · next h =>
      obtain ⟨rfl, -⟩ := h
      cases hp : (g.store t).properties.get? key with
      | none => rfl
      | some p =>
        simp only [Fields.get?_set]
        by_cases hk : k = key
        · simp [hk, hp]
        · simp [hk]
    · rfl

def HasRegistry (g : Graph) : RegistryRef → Prop
  | .property s key => (g.property? s key).isSome
  | .free r => r.index < g.registries.size

theorem readers_eq_nil {r : RegistryRef} (h : ¬ g.HasRegistry r) : g.readers r = [] := by
  cases r with
  | property s key =>
    simp only [HasRegistry, property?, Option.isSome_map, Bool.not_eq_true, Option.isSome_eq_false_iff,
      Option.isNone_iff_eq_none] at h
    simp [readers, h]
  | free r => exact Table.get_of_size_le _ (Nat.le_of_not_lt h)

theorem setReaders_of_not_hasRegistry {r : RegistryRef} (h : ¬ g.HasRegistry r) (readers : List SubscriberId)
    (r' : RegistryRef) : (g.setReaders readers r).readers r' = g.readers r' := by
  cases r with
  | property s key =>
    simp only [HasRegistry, property?, Option.isSome_map, Bool.not_eq_true, Option.isSome_eq_false_iff,
      Option.isNone_iff_eq_none] at h
    cases r' with
    | free r' => rfl
    | property t k =>
      simp only [Graph.readers, setReaders, store_modifyStore]
      split
      · next ht => obtain ⟨rfl, -⟩ := ht; simp [h]
      · rfl
  | free r =>
    simp only [setReaders, Table.modify_of_size_le _ _ (Nat.le_of_not_lt h)]

@[simp] theorem readers_setReaders {r : RegistryRef} (h : g.HasRegistry r) (readers : List SubscriberId)
    (r' : RegistryRef) : (g.setReaders readers r).readers r' = if r' = r then readers else g.readers r' := by
  cases r with
  | free r =>
    cases r' with
    | property t k => simp [Graph.readers, setReaders, store]
    | free r' =>
      have same : r'.index = r.index ↔ r' = r := ⟨congrArg RegistryId.mk, congrArg RegistryId.index⟩
      have exist : r.index < g.registries.size := h
      simp [Graph.readers, setReaders, same, exist]
  | property s key =>
    cases r' with
    | free r' => simp [Graph.readers, setReaders, modifyStore]
    | property t k =>
      have hs : s.index < g.stores.size := by
        apply Nat.lt_of_not_le
        intro hs
        simp [HasRegistry, property?, store_of_size_le hs, Fields.get?] at h
      simp only [HasRegistry, property?, Option.isSome_map] at h
      obtain ⟨p, hp⟩ := Option.isSome_iff_exists.1 h
      simp only [Graph.readers, setReaders, store_modifyStore, hs, and_true, RegistryRef.property.injEq]
      by_cases ht : t = s
      · subst ht
        simp only [if_true, hp, true_and, Fields.get?_set]
        by_cases hk : k = key <;> simp [hk]
      · simp [ht]

theorem enrolled_setReaders (g : Graph) (r : RegistryRef) (more : List SubscriberId) :
    Enrolled g (g.setReaders (g.readers r ++ more) r) where
  property t k := property?_setReaders _ _ _ _ _
  readers r' := by
    by_cases h : g.HasRegistry r
    · rw [readers_setReaders h]
      split
      · next hr => subst hr; exact List.prefix_append _ _
      · exact List.prefix_refl _
    · simp only [setReaders_of_not_hasRegistry h, List.prefix_rfl]
  subscribers := by simp
  models := by simp
  records := by simp
  forest := by simp
  compilers := by simp

theorem enrolled_register (g : Graph) (r : RegistryRef) (s : SubscriberId) : Enrolled g (g.register r s) := by
  unfold register
  split
  · exact .refl g
  · exact enrolled_setReaders g r [s]

theorem enrolled_track (g : Graph) (reader : Option SubscriberId) (s : StoreId) (key : String) :
    Enrolled g (g.track reader s key) := by
  unfold track
  split
  · exact enrolled_register _ _ _
  · exact .refl g

theorem readAlong_cons (g : Graph) (reader : Option SubscriberId) (s : StoreId) (last key : String)
    (keys : List String) : g.readAlong reader s last (key :: keys) =
      match g.property? s key with
      | some (.object next) => (g.track reader s key).readAlong reader next last keys
      | _ => (.undefined, g.track reader s key) := by
  rw [readAlong, read, peek]
  cases g.property? s key with
  | none => rfl
  | some v => cases v <;> rfl

theorem enrolled_readAlong (g : Graph) (reader : Option SubscriberId) (s : StoreId) (last : String)
    (keys : List String) : Enrolled g (g.readAlong reader s last keys).2 := by
  induction keys generalizing g s with
  | nil => exact enrolled_track g reader s last
  | cons key keys ih =>
    have ht := enrolled_track g reader s key
    rw [readAlong_cons]
    split
    · exact ht.trans (ih _ _)
    · exact ht

theorem enrolled_readPath (g : Graph) (reader : Option SubscriberId) (s : StoreId) (path : Path) :
    Enrolled g (g.readPath reader s path).2 := enrolled_readAlong _ _ _ _ _

theorem readAlong_congr (h : ∀ t k, g'.property? t k = g.property? t k) (reader reader' : Option SubscriberId)
    (s : StoreId) (last : String) (keys : List String) :
    (g'.readAlong reader' s last keys).1 = (g.readAlong reader s last keys).1 := by
  induction keys generalizing g g' s with
  | nil => simp [readAlong, read, peek, h]
  | cons key keys ih =>
    rw [readAlong_cons, readAlong_cons, h]
    split
    · apply ih
      intro t k
      rw [(enrolled_track g' reader' s key).property, (enrolled_track g reader s key).property, h]
    · rfl

@[simp] theorem readPath_fst (g : Graph) (reader : Option SubscriberId) (s : StoreId) (path : Path) :
    (g.readPath reader s path).1 = g.valueAt s path := readAlong_congr (fun _ _ => rfl) _ _ _ _ _

theorem valueAt_congr (h : ∀ t k, g'.property? t k = g.property? t k) (s : StoreId) (path : Path) :
    g'.valueAt s path = g.valueAt s path := readAlong_congr h _ _ _ _ _

theorem readsAlong_congr (h : ∀ t k, g'.property? t k = g.property? t k) (s : StoreId) (last : String)
    (keys : List String) : g'.readsAlong s last keys = g.readsAlong s last keys := by
  induction keys generalizing s with
  | nil => simp [readsAlong, h]
  | cons key keys ih => simp only [readsAlong, h, ih]

theorem reads_congr (h : ∀ t k, g'.property? t k = g.property? t k) (s : StoreId) (path : Path) :
    g'.reads s path = g.reads s path := readsAlong_congr h _ _ _

theorem missing?_congr (h : ∀ t k, g'.property? t k = g.property? t k) (s : StoreId) (path : Path) :
    g'.missing? s path = g.missing? s path := by
  have along : ∀ (keys : List String) (s : StoreId),
      g'.missingAlong? s path.last keys = g.missingAlong? s path.last keys := by
    intro keys
    induction keys with
    | nil => intro s; simp [missingAlong?, h]
    | cons key keys ih => intro s; simp only [missingAlong?, h, ih]
  exact along _ _

theorem property?_of_mem_readsAlong {p : StoreId × String} (h : p ∈ g.readsAlong s last keys) :
    (g.property? p.1 p.2).isSome := by
  induction keys generalizing s with
  | nil =>
    simp only [readsAlong] at h
    split at h
    · next hs => simp only [List.mem_singleton] at h; subst h; exact hs
    · simp at h
  | cons key keys ih =>
    simp only [readsAlong] at h
    split at h
    · simp at h
    · next hv =>
      rcases List.mem_cons.1 h with rfl | h
      · simp [hv]
      · exact ih h
    · next hv => simp only [List.mem_singleton] at h; subst h; simp [hv]

/-- A walk goes the same way as long as the properties that it has met keep their values and the one that it
has missed is still missing. -/
theorem walk_stable (kept : ∀ p ∈ g.readsAlong s last keys, g'.property? p.1 p.2 = g.property? p.1 p.2)
    (missing : ∀ p ∈ g.missingAlong? s last keys, g'.property? p.1 p.2 = none) :
    (g'.readAlong none s last keys).1 = (g.readAlong none s last keys).1 ∧
      g'.readsAlong s last keys = g.readsAlong s last keys := by
  induction keys generalizing s with
  | nil =>
    have same : g'.property? s last = g.property? s last := by
      cases hp : g.property? s last with
      | none => exact missing (s, last) (by simp [missingAlong?, hp])
      | some v => rw [← hp]; exact kept (s, last) (by simp [readsAlong, hp])
    simp [readAlong, read, peek, readsAlong, same]
  | cons key keys ih =>
    have same : g'.property? s key = g.property? s key := by
      cases hp : g.property? s key with
      | none => exact missing (s, key) (by simp [missingAlong?, hp])
      | some v => rw [← hp]; exact kept (s, key) (by cases v <;> simp [readsAlong, hp])
    rw [readAlong_cons, readAlong_cons]
    simp only [readsAlong, missingAlong?] at kept missing ⊢
    rw [same]
    cases hv : g.property? s key with
    | none => simp
    | some v =>
      cases v with
      | object next =>
        simp only [hv] at kept missing
        have further := ih (s := next) (fun p hp => kept p (List.mem_cons_of_mem _ hp)) missing
        constructor
        · dsimp only
          rw [readAlong_congr (enrolled_track g' none s key).property none,
            readAlong_congr (enrolled_track g none s key).property none]
          exact further.1
        · simp only [further.2]
      | _ => simp

def Distinct (g : Graph) (s : SubscriberId) : Prop :=
  ∀ r, ∀ s' ∈ g.readers r, g.identity s' = g.identity s → s' = s

theorem mem_readers_of_register {r r' : RegistryRef} {s s' : SubscriberId}
    (h : s' ∈ (g.register r s).readers r') : s' ∈ g.readers r' ∨ s' = s := by
  unfold register at h
  split at h
  · exact .inl h
  · by_cases hr : g.HasRegistry r
    · rw [readers_setReaders hr] at h
      split at h
      · next heq =>
        subst heq
        rcases List.mem_append.1 h with h | h
        · exact .inl h
        · exact .inr (List.mem_singleton.1 h)
      · exact .inl h
    · rw [setReaders_of_not_hasRegistry hr] at h
      exact .inl h

theorem mem_readers_of_track {r : RegistryRef} {s' : SubscriberId}
    (h : s' ∈ (g.track reader s key).readers r) : s' ∈ g.readers r ∨ reader = some s' := by
  unfold track at h
  split at h
  · rcases mem_readers_of_register h with h | rfl
    · exact .inl h
    · exact .inr rfl
  · exact .inl h

theorem mem_readers_of_readAlong {r : RegistryRef} {s' : SubscriberId}
    (h : s' ∈ (g.readAlong reader s last keys).2.readers r) : s' ∈ g.readers r ∨ reader = some s' := by
  induction keys generalizing g s with
  | nil => exact mem_readers_of_track h
  | cons key keys ih =>
    rw [readAlong_cons] at h
    split at h
    · rcases ih h with h | h
      · exact mem_readers_of_track h
      · exact .inr h
    · exact mem_readers_of_track h

theorem mem_readers_register {r : RegistryRef} {s : SubscriberId} (hr : g.HasRegistry r)
    (distinct : g.Distinct s) :
    s ∈ (g.register r s).readers r := by
  unfold register
  split
  · next h =>
    simp only [lists, List.any_eq_true, decide_eq_true_eq] at h
    obtain ⟨s', hs, hi⟩ := h
    exact distinct r s' hs hi ▸ hs
  · rw [readers_setReaders hr, if_pos rfl]
    simp

theorem mem_readers_track {s' : SubscriberId} (h : (g.property? s key).isSome) (distinct : g.Distinct s') :
    s' ∈ (g.track (some s') s key).readers (.property s key) := by
  obtain ⟨v, hv⟩ := Option.isSome_iff_exists.1 h
  simp only [track, hv]
  exact mem_readers_register h distinct

theorem Distinct.track {s' : SubscriberId} (distinct : g.Distinct s') (s : StoreId) (key : String) :
    (g.track (some s') s key).Distinct s' := by
  intro r t ht hi
  simp only [identity, subscriber, (enrolled_track g (some s') s key).subscribers] at hi
  rcases mem_readers_of_track ht with ht | ht
  · exact distinct r t ht hi
  · exact (Option.some.inj ht).symm

theorem mem_readers_readAlong {s' : SubscriberId} (distinct : g.Distinct s') :
    ∀ p ∈ g.readsAlong s last keys,
      s' ∈ (g.readAlong (some s') s last keys).2.readers (.property p.1 p.2) := by
  induction keys generalizing g s with
  | nil =>
    intro p hp
    simp only [readsAlong] at hp
    split at hp
    · next h =>
      simp only [List.mem_singleton] at hp
      subst hp
      exact mem_readers_track h distinct
    · simp at hp
  | cons key keys ih =>
    intro p hp
    have tracked := enrolled_track g (some s') s key
    rw [readAlong_cons]
    simp only [readsAlong] at hp
    cases hv : g.property? s key with
    | none => simp [hv] at hp
    | some v =>
      have here : s' ∈ (g.track (some s') s key).readers (.property s key) :=
        mem_readers_track (by simp [hv]) distinct
      cases v with
      | object next =>
        simp only [hv] at hp
        rcases List.mem_cons.1 hp with rfl | hp
        · exact ((enrolled_readAlong _ _ _ _ _).readers _).subset here
        · apply ih (distinct.track s key)
          rwa [readsAlong_congr tracked.property]
      | _ =>
        simp only [hv, List.mem_singleton] at hp
        subst hp
        exact here

theorem valueAt_stable {path : Path} (kept : ∀ p ∈ g.reads s path, g'.property? p.1 p.2 = g.property? p.1 p.2)
    (missing : ∀ p ∈ g.missing? s path, g'.property? p.1 p.2 = none) : g'.valueAt s path = g.valueAt s path :=
  (walk_stable kept missing).1

variable {t u : StoreId} {v : Value} {path : Path}

theorem exists_of_hasPath (h : g.hasPath s path = true) :
    ∃ t v, g.walk? s path.parents = some t ∧ g.property? t path.last = some v := by
  obtain ⟨t, walk, found⟩ := (Option.any_eq_true _ _).1 h
  simp only [hasKey, Fields.contains, Option.isSome_iff_exists] at found
  obtain ⟨p, hp⟩ := found
  refine ⟨t, p.value, walk, ?_⟩
  rw [property?, hp]
  rfl

theorem peek_of_property? (h : g.property? s key = some v) : g.peek s key = v := by
  rw [peek, h]
  rfl

theorem property?_of_peek {next : StoreId} (h : g.peek s key = .object next) :
    g.property? s key = some (.object next) := by
  rw [peek] at h
  cases hp : g.property? s key with
  | none => rw [hp] at h; cases h
  | some v => rw [hp] at h; rw [← h]; rfl

theorem exists_of_walk?_cons (h : g.walk? s (key :: keys) = some t) :
    ∃ next, g.peek s key = .object next ∧ g.walk? next keys = some t := by
  rw [walk?] at h
  split at h
  · next next hp => exact ⟨next, hp, h⟩
  · cases h

theorem walk?_congr (h : ∀ t k, g'.property? t k = g.property? t k) (s : StoreId) (keys : List String) :
    g'.walk? s keys = g.walk? s keys := by
  induction keys generalizing s with
  | nil => rfl
  | cons key keys ih => simp only [walk?, peek, h, ih]

theorem exists_of_property? (h : g.property? s key = some v) : s.index < g.stores.size := by
  apply Nat.lt_of_not_le
  intro hs
  rw [property?, store_of_size_le hs] at h
  cases h

theorem missingAlong?_of_walk? (walk : g.walk? s keys = some t) (found : g.property? t last = some v) :
    g.missingAlong? s last keys = none := by
  induction keys generalizing s with
  | nil =>
    cases walk
    rw [missingAlong?, found]
    rfl
  | cons key keys ih =>
    obtain ⟨next, hp, walk⟩ := exists_of_walk?_cons walk
    rw [missingAlong?, property?_of_peek hp]
    exact ih walk

theorem readAlong_of_walk? (walk : g.walk? s keys = some t) (found : g.property? t last = some v) :
    (g.readAlong none s last keys).1 = v := by
  induction keys generalizing s with
  | nil =>
    cases walk
    exact peek_of_property? found
  | cons key keys ih =>
    obtain ⟨next, hp, walk⟩ := exists_of_walk?_cons walk
    rw [readAlong_cons, property?_of_peek hp]
    exact ih walk

theorem missing?_of_hasPath (h : g.hasPath s path = true) : g.missing? s path = none := by
  obtain ⟨t, v, walk, found⟩ := exists_of_hasPath h
  exact missingAlong?_of_walk? walk found

end DataBinding.Graph
