import DataBinding.Proofs.PathResolution
import DataBinding.Proofs.ReaderRegistration

namespace DataBinding.Graph

variable {g g' : Graph} {s : SubscriberId} {t u : StoreId} {key last : String} {keys rest : List String} {path : Path}
  {r : RegistryRef} {p : StoreId × String}

/-- Some of these keys lead through objects to a store that has the next key: the keys before the first one that is
missing, that stands before something else than an object, or with which they end. -/
def ComesAlong (g : Graph) (t : StoreId) (keys : List String) (p : StoreId × String) : Prop :=
  ∃ before, before ++ [p.2] <+: keys ∧ g.walk? t before = some p.1 ∧ g.hasKey p.1 p.2 = true

def Comes (g : Graph) (t : StoreId) (path : Path) (p : StoreId × String) : Prop := g.ComesAlong t path.segments p

theorem not_comesAlong_nil : ¬ g.ComesAlong t [] p := by
  rintro ⟨before, within, -⟩
  cases before <;> cases List.prefix_nil.1 within

theorem comesAlong_cons : g.ComesAlong t (key :: rest) p ↔
    (p = (t, key) ∧ g.hasKey t key = true) ∨
      ∃ next, g.property? t key = some (.object next) ∧ g.ComesAlong next rest p := by
  obtain ⟨u, k⟩ := p
  constructor
  · rintro ⟨before, within, walk, found⟩
    cases before with
    | nil =>
      cases walk
      cases (List.cons_prefix_cons.1 within).1
      exact .inl ⟨rfl, found⟩
    | cons key' before =>
      obtain ⟨rfl, inside⟩ := List.cons_prefix_cons.1 within
      obtain ⟨next, held, walk⟩ := exists_of_walk?_cons walk
      exact .inr ⟨next, property?_of_peek held, before, inside, walk, found⟩
  · rintro (⟨same, found⟩ | ⟨next, held, before, within, walk, found⟩)
    · cases same
      exact ⟨[], List.cons_prefix_cons.2 ⟨rfl, List.nil_prefix⟩, rfl, found⟩
    · refine ⟨key :: before, List.cons_prefix_cons.2 ⟨rfl, within⟩, ?_, found⟩
      rw [walk?_cons, held]
      exact walk

theorem mem_readsAlong_iff : p ∈ g.readsAlong t last keys ↔ g.ComesAlong t (keys ++ [last]) p := by
  induction keys generalizing t with
  | nil =>
    rw [List.nil_append, comesAlong_cons, readsAlong, hasKey_eq]
    simp only [not_comesAlong_nil, and_false, exists_false, or_false]
    split
    · next found => simp only [List.mem_singleton, found, and_true]
    · next missing => simp only [List.not_mem_nil, missing, Bool.false_eq_true, and_false]
  | cons key keys ih =>
    rw [List.cons_append, comesAlong_cons, readsAlong, hasKey_eq]
    cases g.property? t key with
    | none => simp
    | some v => cases v <;> simp [ih]

theorem mem_reads_iff : p ∈ g.reads t path ↔ g.Comes t path p := mem_readsAlong_iff

theorem meets_property : g.meets t path (.property u key) = true ↔ g.Comes t path (u, key) := by
  simp [meets, ← mem_reads_iff]

theorem track_of_listed (listed : (g.property? t key).isSome → s ∈ g.readers (.property t key)) :
    g.track (some s) t key = g := by
  cases found : g.property? t key with
  | none => simp only [track, found]
  | some v =>
    have mem := listed (by rw [found]; rfl)
    have known : g.lists (.property t key) (g.identity s) = true := List.any_eq_true.2 ⟨s, mem, decide_eq_true rfl⟩
    simp only [track, found, register, known, if_true]

theorem readAlong_of_listed (listed : ∀ p ∈ g.readsAlong t last keys, s ∈ g.readers (.property p.1 p.2)) :
    (g.readAlong (some s) t last keys).2 = g := by
  induction keys generalizing t with
  | nil =>
    apply track_of_listed
    intro found
    exact listed (t, last) (by simp [readsAlong, found])
  | cons key keys ih =>
    have here : g.track (some s) t key = g := by
      apply track_of_listed
      intro found
      obtain ⟨v, held⟩ := Option.isSome_iff_exists.1 found
      exact listed (t, key) (by cases v <;> simp [readsAlong, held])
    rw [readAlong_cons, here]
    split
    · next next held =>
      apply ih
      intro p mem
      apply listed p
      rw [readsAlong, held]
      exact List.mem_cons_of_mem _ mem
    · rfl

theorem readAlong_keeps {P : Graph → Prop} {reader : Option SubscriberId} (start : P g)
    (set : ∀ g readers t key, P g → P (g.setReaders readers (.property t key))) :
    P (g.readAlong reader t last keys).2 := by
  have track (g : Graph) (t : StoreId) (key : String) (before : P g) : P (g.track reader t key) := by
    unfold Graph.track Graph.register
    split
    · split
      · exact before
      · exact set _ _ _ _ before
    · exact before
  induction keys generalizing g t with
  | nil => exact track g t last start
  | cons key keys ih =>
    rw [readAlong_cons]
    split
    · exact ih (track g t key start)
    · exact track g t key start

/-- The reader has been added at the ends of the lists of those properties that the walk comes to and that did not list
it. Everything else is as it was. -/
structure Tracks (g : Graph) (s : SubscriberId) (t : StoreId) (path : Path) (g' : Graph) : Prop where
  keys : ∀ u, g'.keys u = g.keys u
  property : ∀ u key, g'.property? u key = g.property? u key
  listed : ∀ u key, s ∈ g'.readers (.property u key) ↔ s ∈ g.readers (.property u key) ∨ g.Comes t path (u, key)
  added : ∀ u key, g.Comes t path (u, key) → s ∉ g.readers (.property u key) →
    g'.readers (.property u key) = g.readers (.property u key) ++ [s]
  spared : ∀ u key, s ∈ g.readers (.property u key) ∨ ¬ g.Comes t path (u, key) →
    g'.readers (.property u key) = g.readers (.property u key)
  registries : g'.registries = g.registries
  subscribers : g'.subscribers = g.subscribers
  models : g'.models = g.models
  records : g'.records = g.records
  forest : g'.forest = g.forest
  compilers : g'.compilers = g.compilers

theorem readers_tracked (distinct : g.Distinct s) (t : StoreId) (path : Path) (u : StoreId) (key : String) :
    (g.Comes t path (u, key) → s ∉ g.readers (.property u key) →
      (g.readPath (some s) t path).2.readers (.property u key) = g.readers (.property u key) ++ [s]) ∧
    (s ∈ g.readers (.property u key) ∨ ¬ g.Comes t path (u, key) →
      (g.readPath (some s) t path).2.readers (.property u key) = g.readers (.property u key)) := by
  rw [readers_readPath, ← meets_property]
  constructor
  · intro comes absent
    rw [if_pos comes]
    apply if_neg
    intro known
    obtain ⟨s', mem, same⟩ := List.any_eq_true.1 known
    exact absent (distinct _ s' mem (of_decide_eq_true same) ▸ mem)
  · rintro (mem | other)
    · rw [enlist_of_mem ⟨s, mem, rfl⟩, ite_self]
    · exact if_neg other

theorem tracks_readPath (distinct : g.Distinct s) (t : StoreId) (path : Path) :
    Tracks g s t path (g.readPath (some s) t path).2 where
  keys u := readAlong_keeps (P := fun g' => g'.keys u = g.keys u) rfl fun _ _ _ _ same =>
    (keys_setReaders _ _ _ _).trans same
  property := (enrolled_readPath g (some s) t path).property
  listed u key := by
    obtain ⟨added, spared⟩ := readers_tracked distinct t path u key
    by_cases mem : s ∈ g.readers (.property u key)
    · rw [spared (.inl mem)]
      simp [mem]
    · by_cases comes : g.Comes t path (u, key)
      · rw [added comes mem]
        simp [comes]
      · rw [spared (.inr comes)]
        simp [comes]
  added u key := (readers_tracked distinct t path u key).1
  spared u key := (readers_tracked distinct t path u key).2
  registries := readAlong_keeps (P := fun g' => g'.registries = g.registries) rfl fun _ _ _ _ same => same
  subscribers := (enrolled_readPath g (some s) t path).subscribers
  models := (enrolled_readPath g (some s) t path).models
  records := (enrolled_readPath g (some s) t path).records
  forest := (enrolled_readPath g (some s) t path).forest
  compilers := (enrolled_readPath g (some s) t path).compilers

/-- A tracked reading finds what an untracked one finds, which does nothing. Its reader is listed then with the
properties that the walk comes to, besides those with which it was listed before, and the reading can be repeated. -/
theorem readPath_tracked (distinct : g.Distinct s) (t : StoreId) (path : Path) :
    (g.readPath none t path).2 = g ∧
      ∃ g', g.readPath (some s) t path = ((g.readPath none t path).1, g') ∧ Tracks g s t path g' ∧
        g'.readPath (some s) t path = ((g.readPath none t path).1, g') := by
  have tracks := tracks_readPath distinct t path
  refine ⟨readPath_none g t path, (g.readPath (some s) t path).2, Prod.ext (readPath_fst _ _ _ _) rfl, tracks, ?_⟩
  refine Prod.ext ((readPath_fst _ _ _ _).trans (valueAt_congr tracks.property t path)) ?_
  -- the walk goes the same way, and the reader is listed wherever it comes
  apply readAlong_of_listed
  rw [readsAlong_congr tracks.property]
  exact mem_readers_readAlong distinct

def crossing : List Move :=
  [.createStore [("n", .null), ("x", .string "")], .createStore [("a", .object ⟨0⟩), ("b", .object ⟨0⟩)],
    .createSubscriber none ⟨0⟩, .createSubscriber none ⟨1⟩, .readPath (some ⟨1⟩) ⟨1⟩ ⟨["a"], "n"⟩,
    .readPath (some ⟨0⟩) ⟨1⟩ ⟨["b"], "x"⟩]

def crossed : Graph := (Engine.after {} crossing).graph

theorem crossed_readPath_tracked :
    crossed.Distinct ⟨0⟩ ∧ (crossed.readPath none ⟨1⟩ ⟨["a", "x"], "y"⟩).2 = crossed ∧
      (∃ g', crossed.readPath (some ⟨0⟩) ⟨1⟩ ⟨["a", "x"], "y"⟩ =
          ((crossed.readPath none ⟨1⟩ ⟨["a", "x"], "y"⟩).1, g') ∧ Tracks crossed ⟨0⟩ ⟨1⟩ ⟨["a", "x"], "y"⟩ g' ∧
        g'.readPath (some ⟨0⟩) ⟨1⟩ ⟨["a", "x"], "y"⟩ = ((crossed.readPath none ⟨1⟩ ⟨["a", "x"], "y"⟩).1, g')) ∧
      (crossed.readPath (some ⟨0⟩) ⟨1⟩ ⟨["a", "x"], "y"⟩).2.readers (.property ⟨1⟩ "a") = [⟨1⟩, ⟨0⟩] ∧
      (crossed.readPath (some ⟨0⟩) ⟨1⟩ ⟨["a", "x"], "y"⟩).2.readers (.property ⟨0⟩ "x") = [⟨0⟩] ∧
      (crossed.readPath (some ⟨0⟩) ⟨1⟩ ⟨["a", "x"], "y"⟩).2.readers (.property ⟨0⟩ "n") = [⟨1⟩] := by
  have run : Run (Engine.trace {} crossing) (Engine.after {} crossing) := Run.of_admits (by decide +kernel)
  have unique : (Engine.after {} crossing).UniqueIdentities := by decide +kernel
  have distinct : crossed.Distinct ⟨0⟩ := unique.distinct run.wellFormed (by decide +kernel)
  obtain ⟨untracked, tracked⟩ := readPath_tracked distinct ⟨1⟩ ⟨["a", "x"], "y"⟩
  exact ⟨distinct, untracked, tracked, by decide +kernel, by decide +kernel, by decide +kernel⟩

end DataBinding.Graph
