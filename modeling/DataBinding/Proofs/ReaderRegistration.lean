import DataBinding.Proofs.RegistryGrowth
import DataBinding.Proofs.WatcherCurrency

namespace DataBinding

open DataBinding.Graph (Enlists Lasts)

namespace Engine

variable {e e' : Engine} {m : Move} {s : SubscriberId} {r : RegistryRef}

def started? (e : Engine) : Move → Option RegistryRef
  | .notify r => some r
  | m => (e.written? m).map fun (s, key) => .property s key

def remaining (e : Engine) (m : Move) : Graph :=
  match e.started? m with
  | some r => e.graph.prune r
  | none => e.graph

def added (e : Engine) (r : RegistryRef) : Move → List SubscriberId
  | .readPath reader s path => if e.graph.meets s path r then reader.toList else []
  | .register r' s => if r = r' ∧ e.graph.HasRegistry r' then [s] else []
  | _ => []

def evaluated (e : Engine) (m : Move) : List SubscriberId :=
  (e.updated? m).toList ++ e.graph.newSubscribers (e.perform m).graph

/-- Who reads the property of a registry in a move, or is added to the registry, in this order. -/
def entrants (e : Engine) (m : Move) (r : RegistryRef) : List SubscriberId :=
  e.added r m ++ (e.evaluated m).filter ((e.perform m).graph.follows r)

@[simp]
theorem readers_release (g : Graph) (s : SubscriberId) (r : RegistryRef) : (g.release s).readers r = g.readers r := by
  unfold Graph.release
  dsimp only
  split
  · split <;> exact Graph.readers_congr rfl rfl r
  · exact Graph.readers_congr rfl rfl r

theorem lasts_release (g : Graph) (s : SubscriberId) : Lasts g (g.release s) := by
  unfold Graph.release
  dsimp only
  split
  · split <;> exact .of_same rfl rfl
  · exact .of_same rfl rfl

@[simp] theorem readers_releases (ss : List SubscriberId) (g : Graph) (r : RegistryRef) :
    (ss.foldl Graph.release g).readers r = g.readers r := by
  induction ss generalizing g with
  | nil => rfl
  | cons s ss ih => exact (ih _).trans (readers_release g s r)

theorem lasts_releases (ss : List SubscriberId) (g : Graph) : Lasts g (ss.foldl Graph.release g) := by
  induction ss generalizing g with
  | nil => exact .of_same rfl rfl
  | cons s ss ih => exact (lasts_release g s).trans (ih _)

@[simp] theorem models_update (e : Engine) (s : SubscriberId) : (e.update s).graph.models = e.graph.models := by
  have updates := updates_update e s
  generalize e.update s = e' at updates
  cases updates with
  | notified _ => rfl
  | same _ _ => exact (Graph.enrolled_evaluate _ _ _).models
  | called _ _ _ => exact (Graph.enrolled_evaluate _ _ _).models
  | @filled w _ _ _ _ _ _ =>
    refine Eq.trans ?_ (Graph.enrolled_evaluate e.graph s w).models
    cases w.reaction <;> rfl
  | failed _ _ _ _ => exact (Graph.enrolled_evaluate _ _ _).models

theorem read_update (e : Engine) (s : SubscriberId) :
    ((e.update s).graph.watcher? s = none ∧ (e.update s).graph = e.graph) ∨
      ∃ w, e.graph.watcher? s = some w ∧
        (e.update s).graph.stores = (e.graph.evaluate s w).2.stores ∧
        (e.update s).graph.registries = (e.graph.evaluate s w).2.registries := by
  have updates := updates_update e s
  generalize e.update s = e' at updates
  cases updates with
  | notified role => exact .inl ⟨by rw [Graph.watcher?, role], rfl⟩
  | @same w watcher _ => exact .inr ⟨w, watcher, rfl, rfl⟩
  | @called w _ watcher _ _ => exact .inr ⟨w, watcher, rfl, rfl⟩
  | @filled w _ _ watcher _ _ _ =>
    refine .inr ⟨w, watcher, ?_⟩
    cases w.reaction <;> exact ⟨rfl, rfl⟩
  | @failed w _ _ watcher _ _ _ => exact .inr ⟨w, watcher, rfl, rfl⟩

theorem follows_update (e : Engine) {w : Watcher} (hw : e.graph.watcher? s = some w) (r : RegistryRef) :
    (e.update s).graph.follows r s = e.graph.meets (e.graph.origin w) w.path r := by
  have same (w' : Watcher) (hw' : (e.update s).graph.watcher? s = some w') :
      (e.update s).graph.follows r s = e.graph.meets (e.graph.origin w') w'.path r := by
    rw [Graph.follows_of_watcher? hw', Graph.origin_congr (models_update e s), Graph.meets_congr (property?_update e s)]
  rcases watcher?_update hw with ⟨-, hw'⟩ | ⟨-, hw'⟩
  · exact same w hw'
  · have found := same _ hw'
    exact found

theorem lasts_update (g : Graph) (frames : List Frame) (turn : Turn) (s : SubscriberId) :
    Lasts g (update ⟨g.retain s, frames, turn⟩ s).graph := by
  have retained : Lasts g (g.retain s) := .of_same rfl rfl
  rcases read_update ⟨g.retain s, frames, turn⟩ s with ⟨-, same⟩ | ⟨w, -, stores, registries⟩
  · rw [same]
    exact retained
  · exact (retained.trans (.readAlong _ _ _ _ _)).trans (.of_same stores registries)

theorem readers_update (e : Engine) (s : SubscriberId) (r : RegistryRef) :
    (e.update s).graph.readers r =
      if (e.update s).graph.follows r s then e.graph.enlist (e.graph.readers r) s else e.graph.readers r := by
  rcases read_update e s with ⟨none, same⟩ | ⟨w, hw, stores, registries⟩
  · rw [Graph.follows, none, same]
    rfl
  · rw [follows_update e hw, Graph.readers_congr stores registries]
    exact Graph.readers_readPath _ _ _ _ _

theorem readers_startWrite (g : Graph) (frames : List Frame) (turn : Turn) (purpose : Purpose) (t : StoreId)
    (key : String) (v : Value) (r : RegistryRef) :
    (startWrite ⟨g, frames, turn⟩ purpose t key v).graph.readers r = (g.prune (.property t key)).readers r := by
  rw [startWrite, startPass, Graph.readers_prune, Graph.readers_prune, Graph.readers_install, Graph.live, Graph.live,
    Graph.readers_install]
  rfl

theorem lasts_startWrite (e : Engine) (purpose : Purpose) (t : StoreId) (key : String) (v : Value) :
    Lasts e.graph (e.startWrite purpose t key v).graph := by
  refine (Lasts.install e.graph t key v).trans ?_
  exact Lasts.setReaders _ _ (.property t key)

theorem started?_of_written {t : StoreId} {key : String} (h : e.written? m = some (t, key)) :
    e.started? m = some (.property t key) := by
  cases m with
  | notify r => cases h
  | _ =>
    simp only [started?, h]
    rfl

theorem remaining_of_started (h : e.started? m = some r) : e.remaining m = e.graph.prune r := by
  rw [remaining, h]

theorem remaining_of_not_started (h : e.started? m = none) : e.remaining m = e.graph := by
  rw [remaining, h]

theorem readers_steps (h : Steps e e') (idle : e.updated? .step = none) (r : RegistryRef) :
    e'.graph.readers r = (e.remaining .step).readers r := by
  cases h with
  | update alive => simp [updated?, alive] at idle
  | @hear g n event listener pending first frames =>
    rcases hear_cases ⟨g, .delivery n event pending first :: frames, .next⟩ event listener with
      ⟨⟨turn, hear⟩, quiet⟩ | ⟨m, path, record, text, -, -, -, ⟨-, quiet, hear⟩ | ⟨t, -, written, hear⟩⟩
    · rw [hear, remaining_of_not_started]
      exact congrArg (Option.map _) quiet
    · rw [hear, remaining_of_not_started]
      · exact Graph.readers_congr rfl rfl r
      · exact congrArg (Option.map _) quiet
    · have written : written? ⟨g, .delivery n event (listener :: pending) first :: frames, .next⟩ .step =
          some (t, path.last) := written
      rw [hear, readers_startWrite, remaining_of_started (started?_of_written written)]
      rw [Graph.readers_prune, Graph.readers_prune]
      rfl
  | run => exact readers_release _ _ _
  | @acceptPass _ _ running _ _ _ _ =>
    cases running with
    | none => rfl
    | some s => exact readers_release _ _ _
  | acceptRun => exact readers_release _ _ _
  | delivery => exact Graph.readers_congr rfl rfl r
  | _ => rfl

theorem lasts_steps (h : Steps e e') : Lasts e.graph e'.graph := by
  cases h with
  | update alive => exact lasts_update _ _ _ _
  | @hear g n event listener pending first frames =>
    rcases hear_cases ⟨g, .delivery n event pending first :: frames, .next⟩ event listener with
      ⟨⟨turn, h⟩, -⟩ | ⟨m, path, record, text, -, -, -, ⟨-, -, h⟩ | ⟨t, -, -, h⟩⟩
    · rw [h]
      exact .of_same rfl rfl
    · rw [h]
      exact .of_same rfl rfl
    · rw [h]
      have recorded : Lasts g (g.setRecord record (.string text)) := .of_same rfl rfl
      exact recorded.trans (lasts_startWrite ⟨_, _, _⟩ _ _ _ _)
  | run => exact lasts_release _ _
  | @acceptPass _ _ running _ _ _ _ =>
    cases running with
    | none => exact .of_same rfl rfl
    | some s => exact lasts_release _ _
  | acceptRun => exact lasts_release _ _
  | _ => exact .of_same rfl rfl

theorem lasts_perform (wf : e.WellFormed) (allowed : e.Allows m) : Lasts e.graph (e.perform m).graph := by
  cases m with
  | step => exact lasts_steps (steps_of_allows allowed)
  | write t key v => exact lasts_startWrite e _ _ _ _
  | writePath t path v =>
    simp only [perform, writePath]
    cases e.graph.walk? t path.parents with
    | none => exact .of_same rfl rfl
    | some t => exact lasts_startWrite e _ _ _ _
  | notify r => exact .setReaders _ _ _
  | run s => exact lasts_update e.graph (.run s :: e.frames) e.turn s
  | call m name event =>
    simp only [perform, call]
    cases (e.graph.model m).methods.get? name <;> exact .of_same rfl rfl
  | input n text =>
    simp only [perform, input]
    cases e.graph.forest.setValue n text <;> exact .of_same rfl rfl
  | readPath reader s path => exact .readAlong _ _ _ _ _
  | register r s => exact .register _ _ _
  | createStore pairs => exact .createStore _ _
  | createRegistry => exact ⟨fun _ => List.prefix_refl _, by simp [perform, Graph.createRegistry]⟩
  | createWatcher m path callback => exact (Graph.enlists_createWatcher e.graph m path (.call callback)).lasts
  | release s => exact lasts_release _ _
  | init c => exact (Graph.enlists_init (wf.compilers allowed.2.1) wf.readers).lasts
  | dropCompiler c =>
    have dropped : Lasts e.graph (e.graph.setCompiler c { e.graph.compiler c with dropped := true }) := .of_same rfl rfl
    exact (dropped.trans (lasts_releases (e.graph.compiler c).watchers _)).trans (.of_same rfl rfl)
  | _ => exact .of_same rfl rfl

theorem readers_idle (wf : e.WellFormed) (allowed : e.Allows m) (idle : e.updated? m = none)
    (size : (e.perform m).graph.subscribers.size = e.graph.subscribers.size) (r : RegistryRef) :
    (e.perform m).graph.readers r = (e.added r m).foldl (e.perform m).graph.enlist ((e.remaining m).readers r) := by
  cases m with
  | step => exact readers_steps (steps_of_allows allowed) idle r
  | write t key v => exact readers_startWrite _ _ _ _ _ _ _ _
  | writePath t path v =>
    simp only [perform, writePath, remaining, started?, written?]
    cases e.graph.walk? t path.parents with
    | none => rfl
    | some t => exact readers_startWrite _ _ _ _ _ _ _ _
  | run s => cases idle
  | call m name event =>
    simp only [perform, call]
    cases (e.graph.model m).methods.get? name <;> rfl
  | input n text =>
    simp only [perform, input]
    cases e.graph.forest.setValue n text with
    | error err => rfl
    | ok f => exact Graph.readers_congr rfl rfl r
  | readPath reader t path =>
    have same := Graph.enrolled_readPath e.graph reader t path
    cases reader with
    | none =>
      rw [perform, Graph.readPath_none, added, Option.toList_none, ite_self]
      rfl
    | some s =>
      rw [perform, Graph.readers_readPath, added]
      split
      · exact (Graph.enlist_of_same same.subscribers _ _).symm
      · rfl
  | register r' s =>
    have same := Graph.enrolled_register e.graph r' s
    rw [perform, Graph.readers_register, added]
    split
    · exact (Graph.enlist_of_same same.subscribers _ _).symm
    · rfl
  | createStore pairs => exact Graph.readers_createStore _ _ _
  | createRegistry => exact Graph.readers_createRegistry _ _
  | createWatcher m path callback =>
    rw [perform, (Graph.gains_createWatcher e.graph m path (.call callback)).size] at size
    omega
  | release s => exact readers_release _ _ _
  | init c =>
    have made := Graph.enlists_init (wf.compilers allowed.2.1) wf.readers
    rw [perform] at size ⊢
    rw [made.readers, Graph.newcomers, Graph.newSubscribers_of_size size]
    rfl
  | dropCompiler c =>
    refine Eq.trans (Graph.readers_congr rfl rfl r) (readers_releases (e.graph.compiler c).watchers _ r)
  | _ => exact Graph.readers_congr rfl rfl r

@[simp] theorem subscribers_remaining (e : Engine) (m : Move) : (e.remaining m).subscribers = e.graph.subscribers := by
  unfold remaining
  split
  · exact Graph.subscribers_prune _ _
  · rfl

theorem lasts_remaining (e : Engine) (m : Move) : Lasts (e.remaining m) e.graph := by
  unfold remaining
  split
  · next r _ =>
    refine ⟨fun s => ?_, ?_⟩
    · simp only [Graph.prune, Graph.keys_setReaders, List.prefix_rfl]
    · cases r with
      | property t key => exact Nat.le_refl _
      | free r => exact Nat.le_of_eq (Table.size_modify _ _ _)
  · exact .of_same rfl rfl

theorem added_of_updated (h : e.updated? m = some s) (r : RegistryRef) : e.added r m = [] := by
  cases m with
  | readPath reader t path => cases h
  | register r' t => cases h
  | _ => rfl

theorem started?_of_updated (h : e.updated? m = some s) : e.started? m = none := by
  cases m with
  | step =>
    rw [updated?] at h
    split at h
    · next turn frames =>
      rw [started?, written?, turn, frames]
      · rfl
      · simp
    · cases h
  | run t => rfl
  | _ => cases h

theorem exists_of_mem_entrants (wf : e.WellFormed) (allowed : e.Allows m) (h : s ∈ e.entrants m r) :
    s.index < (e.perform m).graph.subscribers.size := by
  have grown := (changes_perform wf allowed).subscribers
  rcases List.mem_append.1 h with h | h
  · apply Nat.lt_of_lt_of_le _ grown
    cases m with
    | readPath reader t path =>
      rw [added] at h
      split at h
      · exact allowed.2 s (Option.mem_toList.1 h)
      · cases h
    | register r' t =>
      rw [added] at h
      split at h
      · rw [List.mem_singleton.1 h]
        exact Graph.exists_of_alive allowed.2
      · cases h
    | _ => cases h
  · rcases List.mem_append.1 (List.mem_filter.1 h).1 with h | h
    · have alive := (perform_of_updated allowed (Option.mem_toList.1 h)).1
      exact Nat.lt_of_lt_of_le (Graph.exists_of_alive alive) grown
    · exact Graph.exists_of_mem_newSubscribers h

theorem readers_updated (wf : e.WellFormed) (allowed : e.Allows m) (updated : e.updated? m = some s)
    (r : RegistryRef) :
    (e.perform m).graph.readers r =
      ([s].filter ((e.perform m).graph.follows r)).foldl (e.perform m).graph.enlist (e.graph.readers r) := by
  have changes := changes_perform wf allowed
  obtain ⟨alive, frames, turn, h⟩ := perform_of_updated allowed updated
  have readers := readers_update ⟨e.graph.retain s, frames, turn⟩ s r
  have retained : (e.graph.retain s).readers r = e.graph.readers r := Graph.readers_congr rfl rfl r
  have same : (e.graph.retain s).enlist (e.graph.readers r) s = (e.perform m).graph.enlist (e.graph.readers r) s := by
    have identity {t : SubscriberId} (ht : t.index < e.graph.subscribers.size) :
        (e.graph.retain s).identity t = (e.perform m).graph.identity t := by
      have kept : Graph.Changes none none e.graph (e.graph.retain s) := Graph.changes_retain alive
      rw [kept.identity ht, changes.identity ht]
    exact Graph.enlist_congr (fun t ht => identity (wf.readers ht)) (identity (Graph.exists_of_alive alive))
  rw [← h, retained, same] at readers
  rw [readers, List.filter_cons]
  split <;> rfl

theorem entrants_createSubscriber (e : Engine) (identity : Option SubscriberId) (callback : CallbackId)
    (r : RegistryRef) :
    e.entrants (.createSubscriber identity callback) r = [] := by
  apply List.filter_eq_nil_iff.2
  intro s hs
  have new := Graph.le_of_mem_newSubscribers hs
  rw [Graph.follows, Bool.not_eq_true, Option.any_eq_false]
  intro w hw
  have old := Graph.exists_of_watcher? (Graph.watcher?_of_createSubscriber hw)
  omega

theorem enlists_perform (wf : e.WellFormed) (allowed : e.Allows m) :
    Enlists (e.entrants m) (e.remaining m) (e.perform m).graph where
  lasts := (lasts_remaining e m).trans (lasts_perform wf allowed)
  size := by
    simpa using (changes_perform wf allowed).subscribers
  identity hs := by
    rw [subscribers_remaining] at hs
    rw [Graph.identity_congr (subscribers_remaining e m)]
    exact (changes_perform wf allowed).identity hs
  known := exists_of_mem_entrants wf allowed
  readers r := by
    rcases size_perform allowed with size | ⟨identity, callback, rfl⟩ | ⟨m, path, callback, rfl⟩ | ⟨c, rfl⟩
    · rw [entrants, evaluated, Graph.newSubscribers_of_size size, List.append_nil]
      cases updated : e.updated? m with
      | none =>
        rw [Option.toList_none, List.filter_nil, List.append_nil]
        exact readers_idle wf allowed updated size r
      | some s =>
        rw [added_of_updated updated, remaining_of_not_started (started?_of_updated updated)]
        exact readers_updated wf allowed updated r
    · rw [entrants_createSubscriber]
      exact Graph.readers_congr rfl rfl r
    · exact (Graph.enlists_createWatcher e.graph m path (.call callback)).readers r
    · exact (Graph.enlists_init (wf.compilers allowed.2.1) wf.readers).readers r

theorem readers_remaining (e : Engine) (m : Move) (r : RegistryRef) :
    (e.remaining m).readers r = e.graph.readers r ∨ (e.remaining m).readers r = e.graph.live r := by
  unfold remaining
  split
  · rw [Graph.readers_prune]
    split
    · next same =>
      rw [same]
      exact .inr rfl
    · exact .inl rfl
  · exact .inl rfl

theorem sublist_remaining (e : Engine) (m : Move) (r : RegistryRef) :
    ((e.remaining m).readers r).Sublist (e.graph.readers r) := by
  rcases readers_remaining e m r with h | h
  · simp only [h, List.Sublist.refl]
  · rw [h]
    exact List.filter_sublist

end Engine

/-- Who has read the property of a registry, or was added to the registry, each time and the first time first. -/
def History.entered (r : RegistryRef) : History → List SubscriberId
  | [] => []
  | (e, m) :: h => entered r h ++ e.entrants m r

theorem filter_filter_of_imp {α : Type} {p q : α → Bool} {l : List α} (h : ∀ a ∈ l, q a = true → p a = true) :
    (l.filter p).filter q = l.filter q := by
  rw [List.filter_filter]
  apply List.filter_congr
  intro a ha
  cases hq : q a with
  | true => rw [h a ha hq, Bool.and_self]
  | false => rfl

theorem filter_eraseDups {α : Type} [DecidableEq α] (p : α → Bool) :
    (l : List α) → l.eraseDups.filter p = (l.filter p).eraseDups
  | [] => rfl
  | a :: l => by
    have shorter : (l.filter fun b => !b == a).length < l.length + 1 := Nat.lt_succ_of_le (List.length_filter_le _ _)
    rw [List.eraseDups_cons, List.filter_cons, List.filter_cons, filter_eraseDups p (l.filter fun b => !b == a)]
    split
    · rw [List.eraseDups_cons, List.filter_filter, List.filter_filter]
      simp only [Bool.and_comm]
    · next none =>
      rw [List.filter_filter]
      congr 1
      apply List.filter_congr
      intro b _
      by_cases same : b = a
      · simp [same, none]
      · simp [same]
termination_by l => l.length

namespace Engine

variable {e : Engine} {m : Move} {s : SubscriberId} {l xs ys : List SubscriberId} {p : SubscriberId → Bool}

theorem readers_kept (wf : e.WellFormed) (allowed : e.Allows m) (r : RegistryRef) :
    ((e.remaining m).readers r).filter (e.perform m).graph.alive =
      (e.graph.live r).filter (e.perform m).graph.alive := by
  have changes := changes_perform wf allowed
  rcases readers_remaining e m r with same | same
  · rw [same, Graph.live, filter_filter_of_imp fun t ht => changes.alive (wf.readers ht)]
  · rw [same]

theorem prefix_foldl_enlist (g : Graph) (l xs : List SubscriberId) : l <+: xs.foldl g.enlist l := by
  induction xs generalizing l with
  | nil => exact List.prefix_refl l
  | cons x xs ih =>
    refine List.IsPrefix.trans ?_ (ih (g.enlist l x))
    unfold Graph.enlist
    split
    · exact List.prefix_refl l
    · exact List.prefix_append _ _

theorem live_perform (wf : e.WellFormed) (allowed : e.Allows m) (r : RegistryRef) :
    (e.graph.live r).filter (e.perform m).graph.alive <+: (e.perform m).graph.live r := by
  rw [← readers_kept wf allowed, Graph.live, (enlists_perform wf allowed).readers]
  exact (prefix_foldl_enlist _ _ _).filter _

theorem enlist_of_unique (unique : e.UniqueIdentities) (old : ∀ t ∈ l, t.index < e.graph.subscribers.size)
    (new : s.index < e.graph.subscribers.size) : e.graph.enlist l s = if s ∈ l then l else l ++ [s] := by
  split
  · next h => exact Graph.enlist_of_mem ⟨s, h, rfl⟩
  · next h =>
    apply if_neg
    rw [List.any_eq_true]
    rintro ⟨t, ht, same⟩
    exact h (unique t s (old t ht) new (of_decide_eq_true same) ▸ ht)

theorem filter_enlist (unique : e.UniqueIdentities) (old : ∀ t ∈ l, t.index < e.graph.subscribers.size)
    (new : s.index < e.graph.subscribers.size) (h : l.filter p = ys.eraseDups) :
    (e.graph.enlist l s).filter p = (ys ++ [s].filter p).eraseDups := by
  have listed (hp : p s = true) : s ∈ l ↔ s ∈ ys := by
    rw [← List.mem_eraseDups (l := ys), ← h, List.mem_filter, and_iff_left hp]
  rw [enlist_of_unique unique old new, List.eraseDups_append, ← h]
  cases hp : p s with
  | true =>
    have listed := listed hp
    by_cases mem : s ∈ l
    · simp [mem, hp, List.removeAll, listed.1 mem]
    · have other : s ∉ ys := fun hs => mem (listed.2 hs)
      simp [mem, hp, List.removeAll, other, List.eraseDups_cons]
  | false => split <;> simp [hp, List.removeAll]

theorem filter_foldl_enlist (unique : e.UniqueIdentities) (old : ∀ t ∈ l, t.index < e.graph.subscribers.size)
    (new : ∀ t ∈ xs, t.index < e.graph.subscribers.size) (h : l.filter p = ys.eraseDups) :
    (xs.foldl e.graph.enlist l).filter p = (ys ++ xs.filter p).eraseDups := by
  induction xs generalizing l ys with
  | nil => rw [List.filter_nil, List.append_nil, List.foldl_nil, h]
  | cons x xs ih =>
    have first := new x List.mem_cons_self
    have listed : ∀ t ∈ e.graph.enlist l x, t.index < e.graph.subscribers.size := by
      intro t ht
      rcases Graph.mem_enlist ht with ht | rfl
      · exact old t ht
      · exact first
    rw [List.foldl_cons, ih listed (fun t ht => new t (List.mem_cons_of_mem _ ht)) (filter_enlist unique old first h),
      List.append_assoc, ← List.filter_append, List.singleton_append]

end Engine

namespace Run

variable {h h₁ h₀ : History} {e e₀ : Engine} {r : RegistryRef} {s : SubscriberId}

theorem exists_of_mem_entered (run : Run h e) (hs : s ∈ h.entered r) : s.index < e.graph.subscribers.size := by
  induction run with
  | start => cases hs
  | move run allowed ih =>
    rcases List.mem_append.1 hs with hs | hs
    · exact Nat.lt_of_lt_of_le (ih hs) (Engine.changes_perform run.wellFormed allowed).subscribers
    · exact Engine.exists_of_mem_entrants run.wellFormed allowed hs

theorem readers_nodup (run : Run h e) (r : RegistryRef) : ((e.graph.readers r).map e.graph.identity).Nodup := by
  induction run with
  | start => cases r <;> exact .nil
  | @move h e m run allowed ih =>
    have wf := run.wellFormed
    apply (Engine.enlists_perform wf allowed).nodup
    · intro r s hs
      simpa using wf.readers ((Engine.sublist_remaining e m r).subset hs)
    · rw [funext (Graph.identity_congr (Engine.subscribers_remaining e m))]
      exact ih.sublist ((Engine.sublist_remaining e m r).map _)

theorem live_entered (run : Run h e) (unique : e.UniqueIdentities) (r : RegistryRef) :
    e.graph.live r = ((h.entered r).filter e.graph.alive).eraseDups := by
  induction run with
  | start => cases r <;> rfl
  | @move h e m run allowed ih =>
    have wf := run.wellFormed
    have changes := Engine.changes_perform wf allowed
    -- those that are alive after the move were alive before
    have kept : ((e.remaining m).readers r).filter (e.perform m).graph.alive =
        ((h.entered r).filter (e.perform m).graph.alive).eraseDups := by
      rw [Engine.readers_kept wf allowed, ih (unique.earlier wf allowed), filter_eraseDups,
        filter_filter_of_imp fun t ht => changes.alive (run.exists_of_mem_entered ht)]
    rw [Graph.live, (Engine.enlists_perform wf allowed).readers, History.entered, List.filter_append]
    apply Engine.filter_foldl_enlist unique _ _ kept
    · intro t ht
      have old := wf.readers ((Engine.sublist_remaining e m r).subset ht)
      exact Nat.lt_of_lt_of_le old changes.subscribers
    · exact fun t ht => Engine.exists_of_mem_entrants wf allowed ht

theorem alive_since (run₀ : Run h₀ e₀) (run : Run (h₁ ++ h₀) e) :
    e₀.graph.subscribers.size ≤ e.graph.subscribers.size ∧
      ∀ s : SubscriberId, s.index < e₀.graph.subscribers.size → e.graph.alive s → e₀.graph.alive s := by
  apply run₀.onward run ⟨Nat.le_refl _, fun _ _ alive => alive⟩
  rintro h e m earlier allowed ⟨size, alive⟩
  have changes := Engine.changes_perform earlier.wellFormed allowed
  refine ⟨Nat.le_trans size changes.subscribers, ?_⟩
  exact fun s hs after => alive s hs (changes.alive (Nat.lt_of_lt_of_le hs size) after)

theorem unique_since (run₀ : Run h₀ e₀) (run : Run (h₁ ++ h₀) e) : e.UniqueIdentities → e₀.UniqueIdentities := by
  apply run₀.onward run id
  intro h e m earlier allowed before unique
  exact before (unique.earlier earlier.wellFormed allowed)

theorem lasts_since (run₀ : Run h₀ e₀) (run : Run (h₁ ++ h₀) e) : Graph.Lasts e₀.graph e.graph := by
  apply run₀.onward run (Graph.Lasts.of_same rfl rfl)
  intro h e m earlier allowed before
  exact before.trans (Engine.lasts_perform earlier.wellFormed allowed)

theorem live_since (run₀ : Run h₀ e₀) (run : Run (h₁ ++ h₀) e) (r : RegistryRef) :
    (e₀.graph.live r).filter e.graph.alive <+: e.graph.live r := by
  refine run₀.along (P := fun _ e => (e₀.graph.live r).filter e.graph.alive <+: e.graph.live r) run ?start ?move
  case start =>
    have all : (e₀.graph.live r).filter e₀.graph.alive = e₀.graph.live r :=
      List.filter_eq_self.2 fun t ht => (List.mem_filter.1 ht).2
    simp only [all, List.prefix_rfl]
  case move =>
    intro h e m part earlier allowed kept
    have wf := earlier.wellFormed
    have old : ∀ t ∈ e₀.graph.live r, t.index < e.graph.subscribers.size := fun t ht =>
      Nat.lt_of_lt_of_le (run₀.wellFormed.readers (List.mem_filter.1 ht).1) (run₀.alive_since earlier).1
    rw [← filter_filter_of_imp (p := e.graph.alive) fun t ht => (Engine.changes_perform wf allowed).alive (old t ht)]
    exact (kept.filter _).trans (Engine.live_perform wf allowed r)

/-- The live subscribers of a registry are those that have read its property or were added, in the order of the first
time. Registries and keys stay for good. -/
theorem listed_of_entered (run : Run h e) (unique : e.UniqueIdentities) :
    (∀ r, e.graph.live r = (h.entered r).eraseDups.filter e.graph.alive ∧
      ((e.graph.readers r).map e.graph.identity).Nodup) ∧
    (∀ s key, e.graph.readerCount s key =
      ((h.entered (.property s key)).eraseDups.filter e.graph.alive).length) ∧
    ∀ h₁ h₀ e₀, h = h₁ ++ h₀ → Run h₀ e₀ →
      (∀ r, e₀.graph.HasRegistry r →
        e.graph.HasRegistry r ∧ (e₀.graph.live r).filter e.graph.alive <+: e.graph.live r) ∧
      ∀ s, e₀.graph.keys s <+: e.graph.keys s := by
  have live (r : RegistryRef) : e.graph.live r = (h.entered r).eraseDups.filter e.graph.alive := by
    rw [run.live_entered unique, filter_eraseDups]
  refine ⟨fun r => ⟨live r, run.readers_nodup r⟩, fun s key => congrArg List.length (live _), ?_⟩
  rintro h₁ h₀ e₀ rfl run₀
  have lasts := run₀.lasts_since run
  exact ⟨fun r hr => ⟨lasts.hasRegistry hr, run₀.live_since run r⟩, lasts.keys⟩

/-- A pass over the readers of a property begins while another one is under way, and strikes a reader that has just
gone. Later the object that was read first comes back. -/
def returning : List Move :=
  [.createStore [("a", .null)], .createStore [("o", .object ⟨0⟩)], .createStore [("a", .bool true)],
    .createModel { data := ⟨1⟩, methods := [], options := {} }, .createSubscriber none ⟨1⟩,
    .readPath (some ⟨0⟩) ⟨0⟩ ⟨[], "a"⟩, .createWatcher ⟨0⟩ ⟨["o"], "a"⟩ ⟨0⟩, .createSubscriber none ⟨2⟩,
    .register (.property ⟨0⟩ "a") ⟨2⟩, .readPath none ⟨1⟩ ⟨["o"], "a"⟩, .readPath (some ⟨2⟩) ⟨1⟩ ⟨["o"], "a"⟩,
    .write ⟨1⟩ "o" (.object ⟨2⟩), .step, .release ⟨0⟩, .write ⟨0⟩ "a" (.bool false), .step, .step, .step,
    .resume (.error .configuration), .step, .step, .resume (.ok ()), .step, .step, .resume (.ok ()), .step, .step,
    .write ⟨1⟩ "o" (.object ⟨0⟩), .step, .resume (.ok ()), .step, .step, .resume (.ok ()), .step, .step]

def returned : Engine := Engine.after {} returning

theorem returned_listed_of_entered :
    returned.UniqueIdentities ∧ (Engine.trace {} returning).entered (.property ⟨0⟩ "a") = [⟨0⟩, ⟨1⟩, ⟨2⟩, ⟨2⟩, ⟨1⟩] ∧
      returned.graph.live (.property ⟨0⟩ "a") =
        [⟨0⟩, ⟨1⟩, ⟨2⟩, ⟨2⟩, ⟨1⟩].eraseDups.filter returned.graph.alive ∧
      returned.graph.readers (.property ⟨0⟩ "a") = [⟨1⟩, ⟨2⟩] := by
  have run : Run (Engine.trace {} returning) returned := Run.of_admits (by decide +kernel)
  have unique : returned.UniqueIdentities := by decide +kernel
  have entered : (Engine.trace {} returning).entered (.property ⟨0⟩ "a") = [⟨0⟩, ⟨1⟩, ⟨2⟩, ⟨2⟩, ⟨1⟩] := by
    decide +kernel
  have live := (run.listed_of_entered unique).1 (.property ⟨0⟩ "a")
  rw [entered] at live
  exact ⟨unique, entered, live.1, by decide +kernel⟩

end Run

end DataBinding
