import DataBinding.Proofs.AddedWatchers
import DataBinding.Proofs.CompilationPieces

namespace DataBinding

namespace Graph

variable {g g' g₁ g₂ g₃ : Graph} {s t : SubscriberId} {r r' : RegistryRef} {l xs ys : List SubscriberId}

instance (g : Graph) : (r : RegistryRef) → Decidable (g.HasRegistry r)
  | .property s key => inferInstanceAs (Decidable ((g.property? s key).isSome = true))
  | .free r => inferInstanceAs (Decidable (r.index < g.registries.size))

def enlist (g : Graph) (l : List SubscriberId) (s : SubscriberId) : List SubscriberId :=
  if l.any fun t => g.identity t = g.identity s then l else l ++ [s]

def meets (g : Graph) (s : StoreId) (path : Path) (r : RegistryRef) : Bool :=
  (g.reads s path).any fun (t, key) => RegistryRef.property t key = r

def follows (g : Graph) (r : RegistryRef) (s : SubscriberId) : Bool :=
  (g.watcher? s).any fun w => g.meets (g.origin w) w.path r

def newSubscribers (g g' : Graph) : List SubscriberId :=
  (List.range' g.subscribers.size (g'.subscribers.size - g.subscribers.size)).map SubscriberId.mk

theorem identity_congr (h : g'.subscribers = g.subscribers) (s : SubscriberId) : g'.identity s = g.identity s := by
  rw [identity, subscriber_congr h, identity]

theorem enlist_of_mem (h : ∃ t ∈ l, g.identity t = g.identity s) : g.enlist l s = l := by
  obtain ⟨t, ht, same⟩ := h
  exact if_pos (List.any_eq_true.2 ⟨t, ht, decide_eq_true same⟩)

@[simp] theorem enlist_enlist (g : Graph) (l : List SubscriberId) (s : SubscriberId) :
    g.enlist (g.enlist l s) s = g.enlist l s := by
  apply enlist_of_mem
  rw [enlist]
  split
  · next h =>
    obtain ⟨t, ht, same⟩ := List.any_eq_true.1 h
    exact ⟨t, ht, of_decide_eq_true same⟩
  · exact ⟨s, List.mem_append_right _ List.mem_cons_self, rfl⟩

theorem mem_enlist (h : t ∈ g.enlist l s) : t ∈ l ∨ t = s := by
  rw [enlist] at h
  split at h
  · exact .inl h
  · simpa using h

theorem enlist_congr (old : ∀ t ∈ l, g'.identity t = g.identity t) (new : g'.identity s = g.identity s) :
    g'.enlist l s = g.enlist l s := by
  have same : (l.any fun t => g'.identity t = g'.identity s) = l.any fun t => g.identity t = g.identity s := by
    rw [Bool.eq_iff_iff, List.any_eq_true, List.any_eq_true]
    apply exists_congr
    intro t
    rw [and_congr_right_iff]
    intro ht
    rw [old t ht, new]
  rw [enlist, enlist, same]

theorem enlist_of_same (h : g'.subscribers = g.subscribers) (l : List SubscriberId) (s : SubscriberId) :
    g'.enlist l s = g.enlist l s := enlist_congr (fun t _ => identity_congr h t) (identity_congr h s)

theorem foldl_enlist_congr (old : ∀ t ∈ l, g'.identity t = g.identity t)
    (new : ∀ t ∈ xs, g'.identity t = g.identity t) : xs.foldl g'.enlist l = xs.foldl g.enlist l := by
  induction xs generalizing l with
  | nil => rfl
  | cons x xs ih =>
    have first := new x List.mem_cons_self
    rw [List.foldl_cons, List.foldl_cons, enlist_congr old first]
    apply ih
    · intro t ht
      rcases mem_enlist ht with ht | rfl
      · exact old t ht
      · exact first
    · exact fun t ht => new t (List.mem_cons_of_mem _ ht)

theorem nodup_enlist (h : (l.map g.identity).Nodup) : ((g.enlist l s).map g.identity).Nodup := by
  rw [enlist]
  split
  · exact h
  · next others =>
    rw [List.map_append, List.nodup_append]
    refine ⟨h, List.pairwise_singleton _ _, ?_⟩
    intro i hi j hj same
    obtain ⟨t, ht, rfl⟩ := List.mem_map.1 hi
    rw [List.map_singleton, List.mem_singleton] at hj
    exact others (List.any_eq_true.2 ⟨t, ht, decide_eq_true (same.trans hj)⟩)

theorem nodup_foldl_enlist (h : (l.map g.identity).Nodup) : ((xs.foldl g.enlist l).map g.identity).Nodup := by
  induction xs generalizing l with
  | nil => exact h
  | cons x xs ih => exact ih (nodup_enlist h)

theorem readers_register (g : Graph) (r : RegistryRef) (s : SubscriberId) (r' : RegistryRef) :
    (g.register r s).readers r' = if r' = r ∧ g.HasRegistry r then g.enlist (g.readers r') s else g.readers r' := by
  rw [register]
  split
  · next listed =>
    split
    · next here =>
      rw [here.1]
      exact (if_pos listed).symm
    · rfl
  · next others =>
    by_cases hr : g.HasRegistry r
    · rw [readers_setReaders hr]
      by_cases same : r' = r
      · rw [if_pos same, if_pos ⟨same, hr⟩, same]
        exact (if_neg others).symm
      · rw [if_neg same, if_neg fun here => same here.1]
    · rw [setReaders_of_not_hasRegistry hr, if_neg fun here => hr here.2]

theorem readers_track (g : Graph) (s : SubscriberId) (t : StoreId) (key : String) (r : RegistryRef) :
    (g.track (some s) t key).readers r =
      if r = .property t key ∧ (g.property? t key).isSome then g.enlist (g.readers r) s else g.readers r := by
  unfold track
  cases hp : g.property? t key with
  | none => simp
  | some v =>
    have found : g.HasRegistry (.property t key) := by rw [HasRegistry, hp]; rfl
    simp [readers_register, found]

theorem readers_readAlong (g : Graph) (s : SubscriberId) (t : StoreId) (last : String) (keys : List String)
    (r : RegistryRef) :
    (g.readAlong (some s) t last keys).2.readers r =
      if (g.readsAlong t last keys).any fun p => RegistryRef.property p.1 p.2 = r then g.enlist (g.readers r) s
      else g.readers r := by
  induction keys generalizing g t with
  | nil =>
    rw [readAlong, read, readers_track, readsAlong]
    cases g.property? t last with
    | none => simp
    | some v => simp [eq_comm]
  | cons key keys ih =>
    have tracked := enrolled_track g (some s) t key
    have first := readers_track g s t key r
    rw [readAlong_cons, readsAlong]
    cases hp : g.property? t key with
    | none =>
      rw [hp] at first
      simpa using first
    | some v =>
      rw [hp] at first
      cases v with
      | object next =>
        have same (l : List SubscriberId) := enlist_of_same tracked.subscribers l s
        rw [ih, readsAlong_congr tracked.property, same, first]
        by_cases here : r = .property t key
        · simp [here]
        · have other : decide (RegistryRef.property t key = r) = false := decide_eq_false fun same => here same.symm
          dsimp only
          rw [List.any_cons, other, Bool.false_or]
          simp [here]
      | _ => simpa [eq_comm] using first

theorem readers_readPath (g : Graph) (s : SubscriberId) (t : StoreId) (path : Path) (r : RegistryRef) :
    (g.readPath (some s) t path).2.readers r =
      if g.meets t path r then g.enlist (g.readers r) s else g.readers r := readers_readAlong _ _ _ _ _ _

@[simp] theorem readPath_none (g : Graph) (t : StoreId) (path : Path) : (g.readPath none t path).2 = g := by
  have along (keys : List String) : ∀ t, (g.readAlong none t path.last keys).2 = g := by
    induction keys with
    | nil => exact fun _ => rfl
    | cons key keys ih =>
      intro t
      rw [readAlong_cons]
      split
      · exact ih _
      · rfl
  exact along _ _

theorem meets_congr (h : ∀ t k, g'.property? t k = g.property? t k) (t : StoreId) (path : Path) (r : RegistryRef) :
    g'.meets t path r = g.meets t path r := by
  rw [meets, reads_congr h, meets]

@[simp] theorem readers_createStore (g : Graph) (pairs : List (String × Value)) (r : RegistryRef) :
    (g.createStore pairs).2.readers r = g.readers r := by
  cases r with
  | free r => rfl
  | property t key =>
    simp only [Graph.readers, store_createStore]
    split
    · next new =>
      rw [store_of_size_le (Nat.le_of_eq new.symm)]
      exact readers_ofPairs pairs key
    · rfl

@[simp] theorem readers_createRegistry (g : Graph) (r : RegistryRef) : g.createRegistry.2.readers r = g.readers r := by
  cases r with
  | property t key => rfl
  | free r =>
    simp only [Graph.readers, createRegistry, Table.get_add]
    split
    · next new => exact (Table.get_of_size_le _ (Nat.le_of_eq new.symm)).symm
    · rfl

theorem mem_names {α : Type} {fields : Fields α} {key : String} :
    key ∈ fields.names ↔ (fields.get? key).isSome = true := by
  induction fields with
  | nil => simp [Fields.get?, Fields.names]
  | cons f rest ih =>
    rw [Fields.get?, Fields.names, List.map_cons, List.mem_cons]
    split
    · next same => simp [same]
    · next other =>
      rw [← ih, or_iff_right (Ne.symm other)]
      rfl

theorem hasRegistry_property {t : StoreId} {key : String} : g.HasRegistry (.property t key) ↔ key ∈ g.keys t := by
  rw [HasRegistry, property?, Option.isSome_map, keys, mem_names]

theorem keys_install (g : Graph) (s : StoreId) (key : String) (v : Value) (t : StoreId) :
    g.keys t <+: (g.install s key v).keys t := by
  rw [keys, keys, install, store_modifyStore]
  split
  · dsimp only
    rw [Fields.names_set]
    split
    · exact List.prefix_refl _
    · exact List.prefix_append _ _
  · exact List.prefix_refl _

@[simp] theorem keys_setReaders (g : Graph) (readers : List SubscriberId) (r : RegistryRef) (t : StoreId) :
    (g.setReaders readers r).keys t = g.keys t := by
  cases r with
  | free r => rfl
  | property s key =>
    simp only [keys, setReaders, store_modifyStore]
    split
    · split
      · next hp => rw [Fields.names_set, if_pos (mem_names.2 (by rw [hp]; rfl))]
      · rfl
    · rfl

structure Lasts (g g' : Graph) : Prop where
  keys : ∀ s, g.keys s <+: g'.keys s
  registries : g.registries.size ≤ g'.registries.size

namespace Lasts

theorem of_same (stores : g'.stores = g.stores) (registries : g'.registries = g.registries) : Lasts g g' where
  keys s := by simp only [Graph.keys, store, stores, List.prefix_rfl]
  registries := Nat.le_of_eq (by rw [registries])

theorem trans (h : Lasts g₁ g₂) (h' : Lasts g₂ g₃) : Lasts g₁ g₃ where
  keys s := (h.keys s).trans (h'.keys s)
  registries := Nat.le_trans h.registries h'.registries

theorem hasRegistry (h : Lasts g g') (hr : g.HasRegistry r) : g'.HasRegistry r := by
  cases r with
  | property s key => exact hasRegistry_property.2 ((h.keys s).subset (hasRegistry_property.1 hr))
  | free r => exact Nat.lt_of_lt_of_le hr h.registries

theorem setReaders (g : Graph) (readers : List SubscriberId) (r : RegistryRef) :
    Lasts g (g.setReaders readers r) where
  keys s := by simp only [keys_setReaders, List.prefix_rfl]
  registries := by
    cases r with
    | property s key => exact Nat.le_refl _
    | free r => exact Nat.le_of_eq (Table.size_modify _ _ _).symm

theorem register (g : Graph) (r : RegistryRef) (s : SubscriberId) : Lasts g (g.register r s) := by
  unfold Graph.register
  split
  · exact .of_same rfl rfl
  · exact .setReaders _ _ _

theorem readAlong (g : Graph) (reader : Option SubscriberId) (s : StoreId) (last : String) (keys : List String) :
    Lasts g (g.readAlong reader s last keys).2 := by
  have track (g : Graph) (s : StoreId) (key : String) : Lasts g (g.track reader s key) := by
    unfold Graph.track
    split
    · exact .register _ _ _
    · exact .of_same rfl rfl
  induction keys generalizing g s with
  | nil => exact track _ _ _
  | cons key keys ih =>
    rw [readAlong_cons]
    split
    · exact (track _ _ _).trans (ih _ _)
    · exact track _ _ _

theorem install (g : Graph) (s : StoreId) (key : String) (v : Value) : Lasts g (g.install s key v) where
  keys := keys_install g s key v
  registries := Nat.le_refl _

theorem createStore (g : Graph) (pairs : List (String × Value)) : Lasts g (g.createStore pairs).2 where
  keys s := by
    by_cases hs : s.index = g.stores.size
    · rw [Graph.keys, store_of_size_le (Nat.le_of_eq hs.symm)]
      exact List.nil_prefix
    · simp only [Graph.keys, store_createStore, if_neg hs, List.prefix_rfl]
  registries := Nat.le_refl _

end Lasts

/-- These subscribers have been added to the registries, each at the end of a list. -/
structure Enlists (xs : RegistryRef → List SubscriberId) (g g' : Graph) : Prop where
  lasts : Lasts g g'
  size : g.subscribers.size ≤ g'.subscribers.size
  identity : ∀ {s}, s.index < g.subscribers.size → g'.identity s = g.identity s
  known : ∀ {r s}, s ∈ xs r → s.index < g'.subscribers.size
  readers : ∀ r, g'.readers r = (xs r).foldl g'.enlist (g.readers r)

namespace Enlists

variable {xs ys : RegistryRef → List SubscriberId}

theorem trans (exist : ∀ {r s}, s ∈ g₁.readers r → s.index < g₁.subscribers.size) (h : Enlists xs g₁ g₂)
    (h' : Enlists ys g₂ g₃) : Enlists (fun r => xs r ++ ys r) g₁ g₃ where
  lasts := h.lasts.trans h'.lasts
  size := Nat.le_trans h.size h'.size
  identity hs := (h'.identity (Nat.lt_of_lt_of_le hs h.size)).trans (h.identity hs)
  known hs := by
    rcases List.mem_append.1 hs with hs | hs
    · exact Nat.lt_of_lt_of_le (h.known hs) h'.size
    · exact h'.known hs
  readers r := by
    rw [h'.readers, h.readers, List.foldl_append]
    congr 1
    apply Eq.symm
    apply foldl_enlist_congr
    · exact fun t ht => h'.identity (Nat.lt_of_lt_of_le (exist ht) h.size)
    · exact fun t ht => h'.identity (h.known ht)

theorem nodup (h : Enlists xs g g') (exist : ∀ {r s}, s ∈ g.readers r → s.index < g.subscribers.size)
    (nodup : ((g.readers r).map g.identity).Nodup) : ((g'.readers r).map g'.identity).Nodup := by
  rw [h.readers]
  apply nodup_foldl_enlist
  rwa [List.map_congr_left fun t ht => h.identity (exist ht)]

end Enlists

def newcomers (g g' : Graph) (r : RegistryRef) : List SubscriberId := (g.newSubscribers g').filter (g'.follows r)

theorem newSubscribers_of_size (size : g'.subscribers.size = g.subscribers.size) : g.newSubscribers g' = [] := by
  simp [newSubscribers, size]

theorem newSubscribers_trans (h : g₁.subscribers.size ≤ g₂.subscribers.size)
    (h' : g₂.subscribers.size ≤ g₃.subscribers.size) :
    g₁.newSubscribers g₃ = g₁.newSubscribers g₂ ++ g₂.newSubscribers g₃ := by
  obtain ⟨k, hk⟩ := Nat.exists_eq_add_of_le h
  obtain ⟨k', hk'⟩ := Nat.exists_eq_add_of_le h'
  rw [newSubscribers, newSubscribers, newSubscribers, ← List.map_append, hk', hk, Nat.add_sub_cancel_left,
    Nat.add_sub_cancel_left, Nat.add_assoc, Nat.add_sub_cancel_left, ← List.range'_append_1]

theorem exists_of_mem_newSubscribers (h : s ∈ g.newSubscribers g') : s.index < g'.subscribers.size := by
  obtain ⟨i, hi, rfl⟩ := List.mem_map.1 h
  have := List.mem_range'_1.1 hi
  dsimp only
  omega

theorem le_of_mem_newSubscribers (h : s ∈ g.newSubscribers g') : g.subscribers.size ≤ s.index := by
  obtain ⟨i, hi, rfl⟩ := List.mem_map.1 h
  exact (List.mem_range'_1.1 hi).1

theorem follows_of_watcher? {w : Watcher} (hw : g.watcher? s = some w) (r : RegistryRef) :
    g.follows r s = g.meets (g.origin w) w.path r := by
  rw [follows, hw, Option.any_some]

theorem Grows.follows (h : Grows g g') (hs : s.index < g.subscribers.size) : g'.follows r s = g.follows r s := by
  rw [Graph.follows, Graph.follows, h.watcher? hs]
  congr 1
  funext w
  rw [origin_congr h.models, meets_congr h.property]

theorem Enlists.newcomers_trans (exist : ∀ {r s}, s ∈ g₁.readers r → s.index < g₁.subscribers.size)
    (grows' : Grows g₂ g₃) (h : Enlists (g₁.newcomers g₂) g₁ g₂) (h' : Enlists (g₂.newcomers g₃) g₂ g₃) :
    Enlists (g₁.newcomers g₃) g₁ g₃ := by
  have both := h.trans exist h'
  have same : (fun r => g₁.newcomers g₂ r ++ g₂.newcomers g₃ r) = g₁.newcomers g₃ := by
    funext r
    rw [newcomers, newcomers, newcomers, newSubscribers_trans h.size h'.size, List.filter_append]
    congr 1
    apply List.filter_congr
    exact fun t ht => (grows'.follows (exists_of_mem_newSubscribers ht)).symm
  rwa [same] at both

theorem enlists_of_same (stores : g'.stores = g.stores) (registries : g'.registries = g.registries)
    (subscribers : g'.subscribers = g.subscribers) : Enlists (g.newcomers g') g g' where
  lasts := .of_same stores registries
  size := Nat.le_of_eq (by rw [subscribers])
  identity _ := identity_congr subscribers _
  known hs := exists_of_mem_newSubscribers (List.mem_filter.1 hs).1
  readers r := by
    rw [newcomers, newSubscribers_of_size (by rw [subscribers]), readers_congr stores registries]
    rfl

theorem exists_readPath_of_createWatcher (g : Graph) (m : ModelId) (path : Path) (reaction : Reaction) :
    ∃ g₁ : Graph, g₁.stores = g.stores ∧ g₁.registries = g.registries ∧
      (∀ t, (g.createWatcher m path reaction).2.identity t = g₁.identity t) ∧
      (g.createWatcher m path reaction).2.stores =
        (g₁.readPath (some (g.createWatcher m path reaction).1) (g.model m).data path).2.stores ∧
      (g.createWatcher m path reaction).2.registries =
        (g₁.readPath (some (g.createWatcher m path reaction).1) (g.model m).data path).2.registries := by
  let w := g.blankWatcher m path reaction
  refine ⟨g.welcome w, rfl, rfl, ?_, ?_⟩
  · intro t
    rw [createWatcher_eq, identity, setWatched, subscriber_modifySubscriber,
      subscriber_congr (enrolled_evaluate (g.welcome w) ⟨g.subscribers.size⟩ w).subscribers]
    split <;> rfl
  · rw [createWatcher_eq]
    exact ⟨rfl, rfl⟩

theorem enlists_createWatcher (g : Graph) (m : ModelId) (path : Path) (reaction : Reaction) :
    Enlists (g.newcomers (g.createWatcher m path reaction).2) g (g.createWatcher m path reaction).2 := by
  have gains := gains_createWatcher g m path reaction
  obtain ⟨g₁, stores, registries, identity, stores', registries'⟩ := exists_readPath_of_createWatcher g m path reaction
  generalize g.createWatcher m path reaction = made at *
  obtain ⟨s, g'⟩ := made
  dsimp only at *
  have property (t : StoreId) (k : String) : g₁.property? t k = g.property? t k := by
    rw [property?, store, stores, property?, store]
  have new : g.newSubscribers g' = [s] := by
    rw [newSubscribers, gains.size, Nat.add_sub_cancel_left, gains.name]
    rfl
  have follows (r : RegistryRef) : g'.follows r s = g.meets (g.model m).data path r := by
    rw [follows_of_watcher? gains.watcher?_new, origin_congr gains.models, meets_congr gains.property]
    rfl
  exact {
    lasts :=
      ((Lasts.of_same stores registries).trans (.readAlong g₁ (some s) (g.model m).data path.last path.parents)).trans
        (.of_same stores' registries')
    size := by
      rw [gains.size]
      exact Nat.le_succ _
    identity := fun ht => by rw [Graph.identity, gains.others _ (gains.ne_of_lt ht), Graph.identity]
    known := fun hs => exists_of_mem_newSubscribers (List.mem_filter.1 hs).1
    readers := fun r => by
      rw [readers_congr stores' registries', readers_readPath, meets_congr property, newcomers, new,
        List.filter_cons, follows, readers_congr stores registries,
        enlist_congr (fun t _ => (identity t).symm) (identity s).symm]
      split <;> rfl }

end Graph

open DataBinding.Graph (Enlists Lasts)

variable {m : ModelId} {names : NodeId → String → Prop} {g g' : Graph}

theorem Piece.enlists (h : Piece m names g g') : Enlists (g.newcomers g') g g' := by
  cases h with
  | watch path target takes named => exact Graph.enlists_createWatcher _ _ _ _
  | _ => exact Graph.enlists_of_same rfl rfl rfl

theorem Piece.grows (h : Piece m names g g') (hm : m.index < g.models.size) : Graph.Grows g g' := by
  cases h with
  | watch path target takes named => exact .of_gains (Graph.gains_createWatcher _ _ _ _) ⟨hm, rfl⟩
  | _ => exact .of_same rfl rfl rfl rfl

theorem Pieces.grows (h : Pieces m names g g') (hm : m.index < g.models.size) : Graph.Grows g g' := by
  induction h with
  | nil => exact .of_same rfl rfl rfl rfl
  | snoc _ piece ih => exact ih.trans (piece.grows (by rwa [ih.models]))

theorem Pieces.enlists (h : Pieces m names g g') (hm : m.index < g.models.size)
    (exist : ∀ {r s}, s ∈ g.readers r → s.index < g.subscribers.size) : Enlists (g.newcomers g') g g' := by
  induction h with
  | nil => exact Graph.enlists_of_same rfl rfl rfl
  | snoc pieces piece ih =>
    exact ih.newcomers_trans exist (piece.grows (by rwa [(pieces.grows hm).models])) piece.enlists

theorem Graph.enlists_init {id : CompilerId} (hm : (g.compiler id).model.index < g.models.size)
    (exist : ∀ {r s}, s ∈ g.readers r → s.index < g.subscribers.size) :
    Enlists (g.newcomers (g.init id).2) g (g.init id).2 := by
  rcases Graph.init_cases Compilation.closed_trivial g id with ⟨d, h⟩ | ⟨root, g', f, d, pieces, -, h⟩
  · rw [h]
    exact enlists_of_same rfl rfl rfl
  · rw [h]
    have pieces := pieces fun _ _ _ => trivial
    let g₁ : Graph := { g with forest := g.forest.wrap root }
    have wrapped : Enlists (g.newcomers g₁) g g₁ := enlists_of_same rfl rfl rfl
    have exist' : ∀ {r s}, s ∈ g₁.readers r → s.index < g.subscribers.size := by
      intro r s hs
      rw [readers_congr rfl rfl] at hs
      exact exist hs
    have compiled := wrapped.newcomers_trans exist (pieces.grows hm) (pieces.enlists hm exist')
    refine compiled.newcomers_trans exist ?_ (enlists_of_same rfl rfl rfl)
    exact .of_same rfl rfl rfl rfl

end DataBinding
