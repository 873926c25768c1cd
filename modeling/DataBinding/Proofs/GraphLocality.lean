import DataBinding.Proofs.AddedWatchers
import DataBinding.Proofs.ForestLocality

namespace DataBinding.Graph

variable {S : Share} {g b : Graph} {s : SubscriberId} {t : StoreId} {r : RegistryRef} {w : Watcher}

@[simp] theorem alive_splice (here : S .subscriber s.index) : (g.splice S b).alive s = g.alive s := by
  simp [alive, here]

@[simp] theorem watcher?_splice (here : S .subscriber s.index) : (g.splice S b).watcher? s = g.watcher? s := by
  simp [watcher?, here]

theorem local_createSubscriber (closed : g.Closed S) (identity : Option SubscriberId) (role : Role)
    (within : role.Within (S.Has g)) : Local S (fun g => (g.createSubscriber identity role).2) g := by
  apply Local.of_keeps closed
  · intro kind
    cases kind with
    | subscriber => exact Nat.le_of_lt (Table.size_lt_add ..)
    | _ => exact Nat.le_refl _
  · exact { closed.keeps with subscribers := closed.keeps.subscribers.add within }
  · intro b
    have size : (g.splice S b).subscribers.size = g.subscribers.size := Table.size_splice
    rw [createSubscriber, size]
    exact congrArg (fun subscribers => { g.splice S b with subscribers })
      (Table.add_splice (closed.coming .subscriber _ (Nat.le_refl _)) _)

theorem local_holders (closed : g.Closed S) (here : S .subscriber s.index) (count : Nat → Nat) :
    Local S (·.modifySubscriber s fun d => { d with holders := count d.holders }) g :=
  local_modifySubscriber closed here (closed.role here)

theorem local_retain (closed : g.Closed S) (here : S .subscriber s.index) : Local S (·.retain s) g :=
  local_holders closed here (· + 1)

theorem has_of_target? {n : NodeId} {reaction : Reaction} {P : Kind → Nat → Prop} (within : reaction.Within P)
    (target : reaction.target? = some n) : P .node n.index := by
  cases reaction with
  | call _ => cases target
  | showText _ => cases target; exact within
  | showAttribute _ _ => cases target; exact within
  | showValue _ _ => cases target; exact within.1

theorem local_release (closed : g.Closed S) (here : S .subscriber s.index) : Local S (·.release s) g := by
  have given := local_holders closed here (· - 1)
  have kept (b : Graph) : (g.splice S b).keptNode? s = g.keptNode? s := by
    simp [keptNode?, here]
  by_cases last : (g.subscriber s).holders = 1
  · cases keeps : g.keptNode? s with
    | none =>
      refine .congr ?_ (fun b => ?_) given
      · simp only [release, last, keeps, if_true]
      · simp only [release, subscriber_splice here, kept, last, keeps, if_true]
    | some n =>
      obtain ⟨w, watcher, target⟩ := Option.bind_eq_some_iff.1 keeps
      have node := has_of_target? (closed.watcher here watcher).reaction target
      refine .congr ?_ (fun b => ?_) (given.comp (local_releaseNode given.closed node.1))
      · simp only [release, last, keeps, if_true]
        rfl
      · simp only [release, subscriber_splice here, kept, last, keeps, if_true]
        rfl
  · refine .congr ?_ (fun b => ?_) given
    · simp only [release, last, if_false]
    · simp only [release, subscriber_splice here, last, if_false]

@[simp] theorem property?_splice (here : S .store t.index) (key : String) :
    (g.splice S b).property? t key = g.property? t key := by
  simp [property?, here]

@[simp] theorem peek_splice (here : S .store t.index) (key : String) : (g.splice S b).peek t key = g.peek t key := by
  rw [peek, property?_splice here, peek]

theorem Closed.peek (closed : g.Closed S) (here : S .store t.index) (key : String) :
    (g.peek t key).Within (S.Has g) := by
  intro s hs
  rw [Graph.peek, property?] at hs
  cases hp : (g.store t).properties.get? key with
  | none => rw [hp] at hs; cases hs
  | some p =>
    rw [hp] at hs
    exact (closed.store here key p hp).value s hs

theorem walk?_splice (closed : g.Closed S) (here : S .store t.index) (keys : List String) :
    (g.splice S b).walk? t keys = g.walk? t keys := by
  induction keys generalizing t with
  | nil => rfl
  | cons key keys ih =>
    rw [walk?, walk?, peek_splice here]
    cases next : g.peek t key with
    | object u => exact ih (closed.peek here key u next).1
    | _ => rfl

theorem has_of_walk? (closed : g.Closed S) (here : S.Has g .store t.index) {keys : List String} {u : StoreId}
    (walk : g.walk? t keys = some u) : S.Has g .store u.index := by
  induction keys generalizing t with
  | nil =>
    cases walk
    exact here
  | cons key keys ih =>
    rw [walk?] at walk
    split at walk
    · next next hn => exact ih (closed.peek here.1 key next hn) walk
    · cases walk

theorem hasPath_splice (closed : g.Closed S) (here : S.Has g .store t.index) (path : Path) :
    (g.splice S b).hasPath t path = g.hasPath t path := by
  rw [hasPath, walk?_splice closed here.1, hasPath]
  cases walk : g.walk? t path.parents with
  | none => rfl
  | some u => rw [Option.any_some, Option.any_some, hasKey, store_splice (has_of_walk? closed here walk).1, hasKey]

theorem local_install (closed : g.Closed S) (here : S .store t.index) (key : String) {v : Value}
    (within : v.Within (S.Has g)) : Local S (·.install t key v) g := by
  apply local_modifyStore closed here
  intro k p hp
  have store := closed.store here
  rw [Fields.get?_set] at hp
  split at hp
  · cases hp
    refine ⟨within, ?_⟩
    cases old : (g.store t).properties.get? key with
    | none => exact fun _ mem => absurd mem List.not_mem_nil
    | some p => exact (store key p old).readers
  · exact store k p hp

theorem within_createStore {P : Kind → Nat → Prop} {pairs : List (String × Value)}
    (within : ∀ pair ∈ pairs, pair.2.Within P) :
    Store.Within P ⟨Fields.ofPairs (pairs.map fun (key, v) => (key, { value := v }))⟩ := by
  apply List.foldlRecOn (motive := fun fields : Fields Property => Store.Within P ⟨fields⟩)
  · exact fun _ _ => nofun
  · intro fields h pair mem key p hp
    obtain ⟨⟨name, v⟩, given, rfl⟩ := List.mem_map.1 mem
    rw [Fields.get?_set] at hp
    split at hp
    · cases hp
      exact ⟨within (name, v) given, fun _ none => absurd none List.not_mem_nil⟩
    · exact h key p hp

theorem local_createStore (closed : g.Closed S) {pairs : List (String × Value)}
    (within : ∀ pair ∈ pairs, pair.2.Within (S.Has g)) : Local S (fun g => (g.createStore pairs).2) g :=
  local_addStore closed (within_createStore within)

@[simp] theorem readers_splice (here : r.Within (S.Has g)) : (g.splice S b).readers r = g.readers r := by
  cases r with
  | property t key => rw [readers, store_splice here.1, readers]
  | free r => exact Table.get_splice_of_own here.1

theorem Closed.readers (closed : g.Closed S) (here : r.Within (S.Has g)) :
    ∀ s ∈ g.readers r, S.Has g .subscriber s.index := by
  cases r with
  | property t key =>
    rw [Graph.readers]
    cases hp : (g.store t).properties.get? key with
    | none => exact fun _ mem => absurd mem List.not_mem_nil
    | some p => exact (closed.store here.1 key p hp).readers
  | free r => exact closed.keeps.registries.get here.1 fun _ mem => absurd mem List.not_mem_nil

theorem lists_splice (closed : g.Closed S) (here : r.Within (S.Has g)) (identity : SubscriberId) :
    (g.splice S b).lists r identity = g.lists r identity := by
  rw [Bool.eq_iff_iff, lists, lists, List.any_eq_true, List.any_eq_true, readers_splice here]
  refine exists_congr fun s => and_congr_right fun mem => ?_
  rw [Graph.identity, subscriber_splice (closed.readers here s mem).1, Graph.identity]

theorem live_splice (closed : g.Closed S) (here : r.Within (S.Has g)) : (g.splice S b).live r = g.live r := by
  rw [live, readers_splice here, live]
  exact List.filter_congr fun s mem => alive_splice (closed.readers here s mem).1

theorem local_setReaders (closed : g.Closed S) (here : r.Within (S.Has g)) (readers : List SubscriberId)
    (within : ∀ s ∈ readers, S.Has g .subscriber s.index) : Local S (·.setReaders readers r) g := by
  cases r with
  | property t key =>
    have store := closed.store here.1
    apply local_modifyStore closed here.1
    split
    · next p hp =>
      intro k q hq
      rw [Fields.get?_set] at hq
      split at hq
      · cases hq
        exact ⟨(store key p hp).value, within⟩
      · exact store k q hq
    · exact store
  | free r => exact local_setRegistry closed here.1 within

theorem local_register (closed : g.Closed S) (here : r.Within (S.Has g)) (named : S.Has g .subscriber s.index) :
    Local S (·.register r s) g := by
  have same (b : Graph) : (g.splice S b).lists r ((g.splice S b).identity s) = g.lists r (g.identity s) := by
    rw [lists_splice closed here, Graph.identity, subscriber_splice named.1, Graph.identity]
  by_cases listed : g.lists r (g.identity s) = true
  · refine .congr ?_ (fun b => ?_) (.id closed)
    · rw [register, if_pos listed]
    · rw [register, same, if_pos listed]
  · have entered := local_setReaders closed here (g.readers r ++ [s]) (by
      intro u mem
      rcases List.mem_append.1 mem with mem | mem
      · exact closed.readers here u mem
      · rw [List.mem_singleton.1 mem]
        exact named)
    refine .congr ?_ (fun b => ?_) entered
    · rw [register, if_neg listed]
    · simp [register, same, listed, here]

theorem local_prune (closed : g.Closed S) (here : r.Within (S.Has g)) : Local S (·.prune r) g := by
  have pruned := local_setReaders closed here (g.live r) fun s mem =>
    closed.readers here s (List.mem_filter.1 mem).1
  refine .congr rfl (fun b => ?_) pruned
  rw [prune, live_splice closed here]

theorem local_track (closed : g.Closed S) {reader : Option SubscriberId}
    (named : ∀ s ∈ reader, S.Has g .subscriber s.index) (here : S.Has g .store t.index) (key : String) :
    Local S (·.track reader t key) g := by
  cases reader with
  | none => exact .congr rfl (fun _ => rfl) (.id closed)
  | some s =>
    cases found : g.property? t key with
    | none =>
      refine .congr ?_ (fun b => ?_) (.id closed)
      · simp only [track, found]
      · simp only [track, property?_splice here.1, found]
    | some v =>
      refine .congr ?_ (fun b => ?_) (local_register closed (r := .property t key) here (named s rfl))
      · simp only [track, found]
      · simp only [track, property?_splice here.1, found]

theorem yields_read (closed : g.Closed S) {reader : Option SubscriberId}
    (named : ∀ s ∈ reader, S.Has g .subscriber s.index) (here : S.Has g .store t.index) (key : String) :
    Yields S (·.read reader t key) g :=
  ⟨local_track closed named here key, fun _ => peek_splice here.1 key⟩

def readFrom (reader : Option SubscriberId) (last : String) (keys : List String) (v : Value) (g : Graph) :
    Value × Graph :=
  match v with
  | .object u => g.readAlong reader u last keys
  | _ => (.undefined, g)

theorem readAlong_eq_readFrom (g : Graph) (reader : Option SubscriberId) (t : StoreId) (last key : String)
    (keys : List String) :
    g.readAlong reader t last (key :: keys) = readFrom reader last keys (g.peek t key) (g.track reader t key) := by
  rw [readAlong]
  dsimp only [read, readFrom]
  cases g.peek t key <;> rfl

theorem yields_readAlong (closed : g.Closed S) (reader : Option SubscriberId)
    (named : ∀ s ∈ reader, S.Has g .subscriber s.index) (here : S.Has g .store t.index) (last : String)
    (keys : List String) : Yields S (·.readAlong reader t last keys) g := by
  induction keys generalizing g t with
  | nil => exact yields_read closed named here last
  | cons key keys ih =>
    have first := yields_read closed named here key
    have along (g : Graph) := g.readAlong_eq_readFrom reader t last key keys
    refine .congr (along g) (fun b => along _) (first.bind ?_)
    have inside := closed.peek here.1 key
    change Yields S (readFrom reader last keys (g.peek t key)) _
    cases found : g.peek t key with
    | object u =>
      exact ih first.locally.closed (fun s mem => (named s mem).mono first.locally.larger)
        ((inside u found).mono first.locally.larger)
    | _ => exact .of_local (.id first.locally.closed) _

theorem yields_evaluate (closed : g.Closed S) (named : S.Has g .subscriber s.index) (within : w.Within (S.Has g)) :
    Yields S (·.evaluate s w) g := by
  refine .congr rfl (fun b => ?_) (yields_readAlong closed (some s) ?_ (closed.data within.model)
    w.path.last w.path.parents)
  · simp [evaluate, within.model.1, readPath]
  · rintro _ ⟨⟩
    exact named

theorem current_splice (closed : g.Closed S) (named : S.Has g .subscriber s.index) (within : w.Within (S.Has g)) :
    (g.splice S b).current w = g.current w := by
  rw [← evaluate_fst _ s, ← evaluate_fst _ s, (yields_evaluate closed named within).told]

theorem local_renew (closed : g.Closed S) (named : S.Has g .subscriber s.index) (within : w.Within (S.Has g)) :
    Local S (·.renew s w) g := by
  have evaluated := (yields_evaluate closed named within).locally
  have held : Local S (·.setWatched s w (g.current w)) (g.evaluate s w).2 :=
    local_modifySubscriber evaluated.closed named.1
      ⟨within.model.mono evaluated.larger, within.reaction.mono fun _ _ has => has.mono evaluated.larger⟩
  refine .congr rfl (fun b => ?_) (evaluated.comp held)
  rw [renew, current_splice closed named within]

theorem blankWatcher_splice {m : ModelId} (here : S .model m.index) (path : Path) (reaction : Reaction) :
    (g.splice S b).blankWatcher m path reaction = g.blankWatcher m path reaction := by
  simp [blankWatcher, here]

theorem local_welcome (closed : g.Closed S) (within : w.Within (S.Has g)) : Local S (·.welcome w) g := by
  have made := local_createSubscriber closed none (.watch w) within
  cases target : w.reaction.target? with
  | none =>
    refine .congr ?_ (fun b => ?_) made
    · simp only [welcome, target]
      rfl
    · simp only [welcome, target]
      rfl
  | some n =>
    refine .congr ?_ (fun b => ?_) (made.comp (local_retainNode made.closed (has_of_target? within.reaction target).1))
    · simp only [welcome, target]
      rfl
    · simp only [welcome, target]
      rfl

theorem createWatcher_eq_renew (g : Graph) (m : ModelId) (path : Path) (reaction : Reaction) :
    g.createWatcher m path reaction = (⟨g.subscribers.size⟩,
      (g.welcome (g.blankWatcher m path reaction)).renew ⟨g.subscribers.size⟩ (g.blankWatcher m path reaction)) := by
  rw [createWatcher_eq, evaluate_fst, renew]

theorem yields_createWatcher (closed : g.Closed S) {m : ModelId} (known : S.Has g .model m.index) (path : Path)
    (reaction : Reaction) (within : reaction.Within (S.Has g)) : Yields S (·.createWatcher m path reaction) g := by
  have blank : (g.blankWatcher m path reaction).Within (S.Has g) := ⟨known, within⟩
  have welcomed := local_welcome closed blank
  have named : S.Has (g.welcome (g.blankWatcher m path reaction)) .subscriber g.subscribers.size :=
    ⟨closed.coming .subscriber _ (Nat.le_refl _), Table.size_lt_add ..⟩
  have blank' : (g.blankWatcher m path reaction).Within (S.Has (g.welcome (g.blankWatcher m path reaction))) :=
    ⟨known.mono welcomed.larger, within.mono fun _ _ has => has.mono welcomed.larger⟩
  have renewed := local_renew (s := ⟨g.subscribers.size⟩) welcomed.closed named blank'
  refine .congr (createWatcher_eq_renew g m path reaction) (fun b => ?_)
    (.of_local (welcomed.comp renewed) ⟨g.subscribers.size⟩)
  have size : (g.splice S b).subscribers.size = g.subscribers.size := Table.size_splice
  rw [createWatcher_eq_renew, blankWatcher_splice known.1, size]

theorem has_createWatcher (closed : g.Closed S) (m : ModelId) (path : Path) (reaction : Reaction) :
    S.Has (g.createWatcher m path reaction).2 .subscriber (g.createWatcher m path reaction).1.index := by
  have gains := gains_createWatcher g m path reaction
  rw [gains.name]
  exact ⟨closed.coming .subscriber _ (Nat.le_refl _), Nat.lt_of_lt_of_eq (Nat.lt_succ_self _) gains.size.symm⟩

theorem tries_fill (closed : g.Closed S) {slot : Slot} (here : S.Has g .node slot.node.index) (text : String) :
    Tries S (·.fill slot text) g := by
  cases slot with
  | text n => exact tries_setText closed here text
  | attr n name => exact tries_setAttribute closed here.1 name text
  | value n => exact tries_setValue closed here.1 text

theorem local_noted (closed : g.Closed S) (v : Value) {reaction : Reaction} (within : reaction.Within (S.Has g)) :
    Local S (·.noted v reaction) g := by
  cases reaction with
  | showValue n r => exact local_setRecord closed within.2.1 v
  | _ => exact .id closed

end DataBinding.Graph
