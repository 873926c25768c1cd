import DataBinding.Proofs.DocumentFrame

namespace DataBinding

def Frame.delivery? : Frame → Option (NodeId × Event × List Listener)
  | .delivery n event pending _ => some (n, event, pending)
  | _ => none

namespace Engine

def deliveries (e : Engine) : List (NodeId × Event × List Listener) := e.frames.filterMap Frame.delivery?

inductive Delivers (e : Engine) (m : Move) : List (NodeId × Event × List Listener) → Prop
  | same (quiet : e.heard? m = none) : Delivers e m e.deliveries
  | start {n : NodeId} {event : Event} (quiet : e.heard? m = none)
    (asked : m = .dispatch n event ∨ ∃ text, m = .input n text ∧ event = ⟨"input", some text⟩) :
    Delivers e m ((n, event, e.graph.forest.listeners n event.kind) :: e.deliveries)
  | hear {n : NodeId} {event : Event} {listener : Listener} {pending : List Listener}
    {rest : List (NodeId × Event × List Listener)} (heard : e.heard? m = some (n, event, listener))
    (before : e.deliveries = (n, event, listener :: pending) :: rest) :
      Delivers e m ((n, event, pending) :: rest)
  | finish {n : NodeId} {event : Event} {rest : List (NodeId × Event × List Listener)}
      (quiet : e.heard? m = none)
    (before : e.deliveries = (n, event, []) :: rest) : Delivers e m rest

variable {e e' : Engine} {m : Move} {s : SubscriberId} {w : Watcher} {n : NodeId} {r : RecordId}

theorem deliveries_congr (h : e'.frames = e.frames) :
    e'.deliveries = e.deliveries := by rw [deliveries, h, deliveries]

@[simp] theorem deliveries_hear (e : Engine) (event : Event) (listener : Listener) :
    (e.hear event listener).deliveries = e.deliveries := by
  rcases hear_cases e event listener with ⟨⟨turn, h⟩, -⟩
    | ⟨m, path, r, text, -, -, -, ⟨-, -, h⟩ | ⟨t, -, -, h⟩⟩ <;>
  · rw [h]
    rfl

theorem delivers_steps (h : Steps e e') : Delivers e .step e'.deliveries := by
  cases h with
  | update alive =>
    rw [deliveries_congr (frames_update _ _)]
    exact .same rfl
  | hear =>
    rw [deliveries_hear]
    exact .hear rfl rfl
  | delivery => exact .finish rfl rfl
  | _ => exact .same rfl

theorem delivers_perform (allowed : e.Allows m) : Delivers e m (e.perform m).deliveries := by
  cases m with
  | step => exact delivers_steps (steps_of_allows allowed)
  | writePath s path v =>
    simp only [perform, writePath]
    cases e.graph.walk? s path.parents <;> exact .same rfl
  | run s =>
    rw [perform, run, deliveries_congr (frames_update _ _)]
    exact .same rfl
  | call m name event =>
    simp only [perform, call]
    cases (e.graph.model m).methods.get? name <;> exact .same rfl
  | dispatch n event => exact .start rfl (.inl rfl)
  | input n text =>
    simp only [perform, input]
    cases h : e.graph.forest.setValue n text with
    | error err => exact .same rfl
    | ok f =>
      have same : f.listeners n "input" = e.graph.forest.listeners n "input" := by
        rw [Forest.listeners, (Forest.spares_setValue h).listeners, Forest.listeners]
      have started : Delivers e (.input n text)
          ((n, ⟨"input", some text⟩, e.graph.forest.listeners n "input") :: e.deliveries) :=
        .start rfl (.inr ⟨text, rfl, rfl⟩)
      rw [← same] at started
      exact started
  | _ => exact .same rfl

theorem heard?_of_updated (h : e.updated? m = some s) : e.heard? m = none := by
  obtain ⟨g, frames, turn⟩ := e
  cases m with
  | step =>
    cases turn with
    | next =>
      cases frames with
      | nil => rfl
      | cons frame frames =>
        cases frame with
        | delivery n event pending first => cases h
        | _ => rfl
    | _ => rfl
  | _ => rfl

/-- Every model binding has a record of its own and a listener on its node that knows it. All that listens for
text belongs to a model binding, and what a delivery has yet to run listens to its node. -/
structure Wired (e : Engine) : Prop where
  recorded : ∀ {s w n r}, e.graph.watcher? s = some w → w.reaction = .showValue n r →
    r.index < e.graph.records.size
  listens : ∀ {s w n r}, e.graph.watcher? s = some w → w.reaction = .showValue n r →
    ("input", .input w.model w.path r) ∈ (e.graph.forest.node n).listeners
  apart : ∀ {s s' w w' n n' r}, e.graph.watcher? s = some w → e.graph.watcher? s' = some w' →
    w.reaction = .showValue n r → w'.reaction = .showValue n' r → s = s'
  heard : ∀ {n kind m path r}, (kind, Listener.input m path r) ∈ (e.graph.forest.node n).listeners →
    kind = "input" ∧ ∃ s w, e.graph.watcher? s = some w ∧ w.model = m ∧ w.path = path ∧
      w.reaction = .showValue n r
  pending : ∀ {n event pending}, (n, event, pending) ∈ e.deliveries → ∀ listener ∈ pending,
    (event.kind, listener) ∈ (e.graph.forest.node n).listeners

theorem mem_listeners {f : Forest} {kind : String} {listener : Listener} :
    listener ∈ f.listeners n kind ↔ (kind, listener) ∈ (f.node n).listeners := by
  rw [Forest.listeners, List.mem_filterMap]
  constructor
  · rintro ⟨⟨kind', listener'⟩, mem, h⟩
    dsimp only at h
    split at h
    · next hk =>
      cases h
      rw [← hk]
      exact mem
    · cases h
  · intro mem
    exact ⟨_, mem, if_pos rfl⟩

theorem bound_before (wf : e.WellFormed) (allowed : e.Allows m) (started : ∀ c, m ≠ .init c)
    (hw : (e.perform m).graph.watcher? s = some w) (target : w.reaction = .showValue n r) :
    ∃ w₀, e.graph.watcher? s = some w₀ ∧ w = { w₀ with value := w.value } := by
  rcases (changes_perform wf allowed).watched hw with old | ⟨new, -⟩
  · exact old
  · have exist := Graph.exists_of_watcher? hw
    rcases size_perform allowed with size | ⟨identity, callback, rfl⟩ | ⟨model, path, callback, rfl⟩
      | ⟨c, rfl⟩
    · rw [size] at exist
      exact absurd exist (Nat.not_lt_of_le new)
    · have old := Graph.exists_of_watcher? (Graph.watcher?_of_createSubscriber hw)
      exact absurd old (Nat.not_lt_of_le new)
    · have gains := Graph.gains_createWatcher e.graph model path (.call callback)
      obtain ⟨-, rfl⟩ := gains.eq_of_watcher? new hw
      cases target
    · exact absurd rfl (started c)

theorem pending_perform (wired : e.Wired) (allowed : e.Allows m)
    (listeners : ∀ n, (e.graph.forest.node n).listeners <+: ((e.perform m).graph.forest.node n).listeners) :
    ∀ {n event pending}, (n, event, pending) ∈ (e.perform m).deliveries → ∀ listener ∈ pending,
      (event.kind, listener) ∈ ((e.perform m).graph.forest.node n).listeners := by
  have delivers := delivers_perform allowed
  generalize (e.perform m).deliveries = ds at delivers
  intro n event pending mem listener hl
  apply (listeners n).subset
  cases delivers with
  | same _ => exact wired.pending mem listener hl
  | start _ _ =>
    rcases List.mem_cons.1 mem with same | mem
    · cases same
      exact mem_listeners.1 hl
    · exact wired.pending mem listener hl
  | hear _ before =>
    rcases List.mem_cons.1 mem with same | mem
    · cases same
      exact wired.pending (before ▸ List.mem_cons_self) listener (List.mem_cons_of_mem _ hl)
    · exact wired.pending (before ▸ List.mem_cons_of_mem _ mem) listener hl
  | finish _ before => exact wired.pending (before ▸ List.mem_cons_of_mem _ mem) listener hl

theorem wired_leaves (wf : e.WellFormed) (wired : e.Wired) (allowed : e.Allows m)
    (started : ∀ c, m ≠ .init c) :
    (e.perform m).Wired := by
  have leaves := leaves_perform allowed started
  have before {s : SubscriberId} {w : Watcher} {n : NodeId} {r : RecordId}
      (hw : (e.perform m).graph.watcher? s = some w) (target : w.reaction = .showValue n r) :
      ∃ w₀, e.graph.watcher? s = some w₀ ∧ w₀.reaction = .showValue n r ∧ w₀.model = w.model ∧
          w₀.path = w.path := by
    obtain ⟨w₀, hw₀, same⟩ := bound_before wf allowed started hw target
    refine ⟨w₀, hw₀, ?_, by rw [same], by rw [same]⟩
    rw [same] at target
    exact target
  exact {
    recorded := fun hw target => by
      obtain ⟨w₀, hw₀, target₀, -⟩ := before hw target
      rw [leaves.records]
      exact wired.recorded hw₀ target₀
    listens := fun hw target => by
      obtain ⟨w₀, hw₀, target₀, model, path⟩ := before hw target
      rw [← model, ← path]
      exact (leaves.listeners _).subset (wired.listens hw₀ target₀)
    apart := fun hw hw' target target' => by
      obtain ⟨w₀, hw₀, target₀, -⟩ := before hw target
      obtain ⟨w₀', hw₀', target₀', -⟩ := before hw' target'
      exact wired.apart hw₀ hw₀' target₀ target₀'
    heard := fun hl => by
      obtain ⟨kind, s, w₀, hw₀, model, path, target⟩ := wired.heard (leaves.heard hl)
      refine ⟨kind, s, ?_⟩
      by_cases updated : e.updated? m = some s
      · rcases watcher?_of_updated allowed updated hw₀ with ⟨-, hw⟩ | ⟨-, hw⟩
        · exact ⟨_, hw, model, path, target⟩
        · exact ⟨_, hw, model, path, target⟩
      · refine ⟨w₀, ?_, model, path, target⟩
        rw [watcher?_of_not_updated wf allowed (Graph.exists_of_watcher? hw₀) updated]
        exact hw₀
    pending := pending_perform wired allowed leaves.listeners }

theorem wired_init {c : CompilerId} (wf : e.WellFormed) (wired : e.Wired) (allowed : e.Allows (.init c)) :
    (e.perform (.init c)).Wired := by
  have extended := (Graph.initializes_init (wf.compilers allowed.2.1)).extended
  have grows := extended.grows
  have wires := extended.wires
  have old {s : SubscriberId} (hs : s.index < e.graph.subscribers.size) :
      (e.perform (.init c)).graph.watcher? s = e.graph.watcher? s := grows.watcher? hs
  exact {
    recorded := fun {s w n r} hw target => by
      by_cases hs : s.index < e.graph.subscribers.size
      · rw [old hs] at hw
        exact Nat.lt_of_lt_of_le (wired.recorded hw target) wires.size
      · exact (wires.wired (Nat.le_of_not_lt hs) hw target).1.2
    listens := fun {s w n r} hw target => by
      by_cases hs : s.index < e.graph.subscribers.size
      · rw [old hs] at hw
        exact (wires.listeners n).subset (wired.listens hw target)
      · exact (wires.wired (Nat.le_of_not_lt hs) hw target).2.2
    apart := fun {s s' w w' n n' r} hw hw' target target' => by
      -- new records come after all old ones
      by_cases hs : s.index < e.graph.subscribers.size
      · by_cases hs' : s'.index < e.graph.subscribers.size
        · rw [old hs] at hw
          rw [old hs'] at hw'
          exact wired.apart hw hw' target target'
        · rw [old hs] at hw
          have early := wired.recorded hw target
          have late := (wires.wired (Nat.le_of_not_lt hs') hw' target').1.1
          exact absurd early (Nat.not_lt_of_le late)
      · by_cases hs' : s'.index < e.graph.subscribers.size
        · rw [old hs'] at hw'
          have early := wired.recorded hw' target'
          have late := (wires.wired (Nat.le_of_not_lt hs) hw target).1.1
          exact absurd early (Nat.not_lt_of_le late)
        · exact wires.apart (Nat.le_of_not_lt hs) (Nat.le_of_not_lt hs') hw hw' target target'
    heard := fun hl => by
      rcases wires.heard hl with hl | ⟨kind, s, w, -, hw, model, path, target⟩
      · obtain ⟨kind, s, w, hw, model, path, target⟩ := wired.heard hl
        refine ⟨kind, s, w, ?_, model, path, target⟩
        rw [old (Graph.exists_of_watcher? hw)]
        exact hw
      · exact ⟨kind, s, w, hw, model, path, target⟩
    pending := pending_perform wired allowed wires.listeners }

theorem wired_perform (wf : e.WellFormed) (wired : e.Wired) (allowed : e.Allows m) : (e.perform m).Wired := by
  by_cases started : ∃ c, m = .init c
  · obtain ⟨c, rfl⟩ := started
    exact wired_init wf wired allowed
  · exact wired_leaves wf wired allowed fun c h => started ⟨c, h⟩

theorem wired_start : Wired {} where
  recorded hw _ := absurd (Graph.exists_of_watcher? hw) (Nat.not_lt_zero _)
  listens hw _ := absurd (Graph.exists_of_watcher? hw) (Nat.not_lt_zero _)
  apart hw _ _ _ := absurd (Graph.exists_of_watcher? hw) (Nat.not_lt_zero _)
  heard {n _ _ _ _} hl := by
    have absent : Forest.node {} n = { content := .fragment } := Forest.node_of_size_le (Nat.zero_le _)
    rw [absent] at hl
    cases hl
  pending h := by cases h

end Engine

theorem Run.wired {h : History} {e : Engine} (run : Run h e) : e.Wired := by
  induction run with
  | start => exact Engine.wired_start
  | move run allowed ih => exact Engine.wired_perform run.wellFormed ih allowed

end DataBinding
