import DataBinding.Proofs.CompilerOwnership
import DataBinding.Proofs.DeliveryOrder
import DataBinding.Proofs.InvocationChain
import DataBinding.Proofs.TypedTexts

namespace DataBinding

variable {e e₁ : Engine} {m : Move} {s : SubscriberId} {c : CompilerId} {r : RegistryRef} {n : NodeId} {event : Event}
  {h h₁ h₂ : History}

namespace Engine

theorem put?_of_written? {t : StoreId} {key : String} (written : e.written? m = some (t, key)) :
    ∃ v, e.put? m = some (t, key, v) := by
  cases m with
  | step =>
    simp only [written?] at written
    split at written
    · next node event listener _ _ _ turn frames =>
      simp only [put?, turn, frames, written]
      cases listener with
      | input m path r =>
        cases value : event.value with
        | none =>
          rw [typed?, value] at written
          cases written
        | some text => exact ⟨_, rfl⟩
      | _ => cases written
    · cases written
  | write t' key' v =>
    cases written
    exact ⟨v, rfl⟩
  | writePath t' path v =>
    simp only [written?, Option.map_eq_some_iff] at written
    obtain ⟨u, walk, same⟩ := written
    cases same
    exact ⟨v, by simp only [put?, walk, Option.map_some]⟩
  | _ => cases written

theorem pass_of_started? (allowed : e.Allows m) (started : e.started? m = some r) :
    ∃ purpose below g, e.perform m = ⟨g, .pass purpose none (e.graph.live r) [] :: below, .next⟩ ∧
      below.length = e.frames.length := by
  cases m with
  | notify r' =>
    cases started
    exact ⟨.notify, e.frames, e.graph.prune r, rfl, rfl⟩
  | _ =>
    simp only [started?, Option.map_eq_some_iff] at started
    obtain ⟨⟨t, key⟩, found, rfl⟩ := started
    obtain ⟨v, put⟩ := put?_of_written? found
    obtain ⟨purpose, below, g, begun, depth, -⟩ := pass_of_put? allowed put
    exact ⟨purpose, below, g, begun, depth⟩

theorem listeners_perform (wf : e.WellFormed) (allowed : e.Allows m) (n : NodeId) :
    (e.graph.forest.node n).listeners <+: ((e.perform m).graph.forest.node n).listeners := by
  by_cases started : ∃ c, m = .init c
  · obtain ⟨c, rfl⟩ := started
    exact (Graph.initializes_init (wf.compilers allowed.2.1)).extended.wires.listeners n
  · exact (leaves_perform allowed fun c same => started ⟨c, same⟩).listeners n

theorem alive_dropCompiler (other : s ∉ (e.graph.compiler c).watchers) :
    (e.perform (.dropCompiler c)).graph.alive s = e.graph.alive s := by
  have holders := Graph.holders_releases (e.graph.compiler c).watchers
    (e.graph.setCompiler c { e.graph.compiler c with dropped := true }) s
  rw [List.count_eq_zero.2 other] at holders
  have same : ((e.perform (.dropCompiler c)).graph.subscriber s).holders = (e.graph.subscriber s).holders := holders
  rw [Graph.alive, same, Graph.alive]

theorem not_updated_of_gone (allowed : e.Allows m) (gone : e.graph.alive s = false) : e.updated? m ≠ some s := by
  intro updated
  rw [(perform_of_updated allowed updated).1] at gone
  cases gone

theorem filler_of_differs {slot : Slot} (allowed : e.Allows m) (others : ∀ c, m ≠ .init c)
    (exist : slot.node.index < e.graph.forest.size)
    (differs : (e.perform m).graph.forest.shows slot ≠ e.graph.forest.shows slot) :
    m.edited? = some slot ∨
      ∃ t w, e.updated? m = some t ∧ e.graph.watcher? t = some w ∧ w.reaction.slot? = some slot := by
  have filled : e.filled? m = some slot := by
    apply Classical.byContradiction
    exact fun other => differs ((leaves_perform allowed others).shows other exist)
  rcases Option.or_eq_some_iff.1 filled with edited | ⟨-, watched⟩
  · exact .inl edited
  · obtain ⟨w, watched, target⟩ := Option.bind_eq_some_iff.1 watched
    obtain ⟨t, updated, watcher⟩ := Option.bind_eq_some_iff.1 watched
    exact .inr ⟨t, w, updated, watcher, target⟩

theorem perform_of_gone (allowed : e.Allows m) {alive : Bool} (visited : e.visited? = some (s, alive))
    (gone : e.graph.alive s = false) :
    ∃ purpose running pending failures below, e.frames = .pass purpose running (s :: pending) failures :: below ∧
      e.perform m = ⟨e.graph, .pass purpose none pending failures :: below, .next⟩ := by
  obtain ⟨g, frames, turn⟩ := e
  unfold visited? at visited
  split at visited
  · next purpose running t pending failures below turn frames =>
    cases visited
    dsimp only at turn frames gone
    subst turn frames
    have own : m = .step := allowed.1.2 rfl
    subst own
    refine ⟨purpose, running, pending, failures, below, rfl, ?_⟩
    simp only [perform, step?, Option.getD_some, proceed, gone, Bool.false_eq_true, if_false]
  · cases visited

theorem turn_of_method {model : ModelId} {callback : CallbackId} (allowed : e.Allows m)
    (heard : e.heard? m = some (n, event, .method model callback)) :
    (e.perform m).turn = .environment (.call callback (.invocation model event)) := by
  obtain ⟨pending, first, frames, -, performed⟩ := perform_of_heard allowed heard
  rw [performed]
  rfl

theorem written_of_input {model : ModelId} {path : Path} {record : RecordId} {text : String} {t : StoreId}
    (allowed : e.Allows m) (heard : e.heard? m = some (n, event, .input model path record))
    (typed : event.value = some text)
    (differs : (e.graph.model model).options.changeDetection.same (.string text) (e.graph.record record) = false)
    (walk : e.graph.walk? (e.graph.model model).data path.parents = some t) :
    e.written? m = some (t, path.last) ∧
      (t.index < e.graph.stores.size → (e.perform m).graph.property? t path.last = some (.string text)) := by
  constructor
  · rw [written?_of_heard heard]
    simp only [typed?, typed, differs, walk, Option.bind_some]
    rfl
  · intro exist
    obtain ⟨pending, first, frames, -, performed⟩ := perform_of_heard allowed heard
    let waiting : Engine := ⟨e.graph, .delivery n event pending first :: frames, .next⟩
    have begun := hear_of_differs (e := waiting) typed differs walk
    obtain ⟨g, started, installed⟩ := startWrite_eq { waiting with graph := e.graph.setRecord record (.string text) }
      (.input path.last) t path.last (.string text)
    rw [performed, begun, started]
    exact installed exist

end Engine

namespace Run

theorem listeners_onward (run₁ : Run h₁ e₁) (run : Run (h₂ ++ h₁) e) (n : NodeId) :
    (e₁.graph.forest.node n).listeners <+: (e.graph.forest.node n).listeners := by
  apply run₁.onward run (List.prefix_refl _)
  intro h e m earlier allowed kept
  exact kept.trans (Engine.listeners_perform earlier.wellFormed allowed n)

theorem compiler_onward (run₁ : Run h₁ e₁) (run : Run (h₂ ++ h₁) e) (dropped : (e₁.graph.compiler c).dropped = true) :
    e.graph.compiler c = e₁.graph.compiler c := by
  refine run₁.onward (P := fun e => e.graph.compiler c = e₁.graph.compiler c) run rfl ?_
  intro h e m earlier allowed same
  rw [Engine.compiler_of_dropped earlier.wellFormed allowed (by rw [same, dropped]), same]

/-- What has become of a compiler that was let go, and of everybody else. Its watchers are gone, their callbacks do
not run, and they are passed over where a pass comes to them. No slot changes on their account. Others are alive as
before and are notified in the order in which they were listed. Listeners stay, hear of all events and have methods
called and texts written. -/
structure Stopped (h₂ : History) (e₁ : Engine) (h₁ : History) (e : Engine) (c : CompilerId) : Prop where
  gone : ∀ s ∈ (e₁.graph.compiler c).watchers,
    e.graph.alive s = false ∧ e.graph.watcher? s = e₁.graph.watcher? s ∧ ∀ r, s ∉ e.graph.live r
  quiet : ∀ x ∈ h₂, ∀ s ∈ (e₁.graph.compiler c).watchers,
    x.1.updated? x.2 ≠ some s ∧ x.1.invocation? x.2 s = none
  skipped : ∀ x ∈ h₂, ∀ s ∈ (e₁.graph.compiler c).watchers, ∀ alive, x.1.visited? = some (s, alive) →
    ∃ purpose running pending failures below, x.1.frames = .pass purpose running (s :: pending) failures :: below ∧
      x.1.perform x.2 = ⟨x.1.graph, .pass purpose none pending failures :: below, .next⟩
  slots : ∀ x ∈ h₂, ∀ slot : Slot, slot.node.index < x.1.graph.forest.size →
    (x.1.perform x.2).graph.forest.shows slot ≠ x.1.graph.forest.shows slot →
      x.2.edited? = some slot ∨ (∃ c', c' ≠ c ∧ x.2 = .init c') ∨
        ∃ t w, t ∉ (e₁.graph.compiler c).watchers ∧ x.1.updated? x.2 = some t ∧ x.1.graph.watcher? t = some w ∧
          w.reaction.slot? = some slot
  spared : ∀ h' e₀ h₀, h₁ = h' ++ (e₀, .dropCompiler c) :: h₀ → ∀ s ∉ (e₁.graph.compiler c).watchers,
    (e₀.perform (.dropCompiler c)).graph.alive s = e₀.graph.alive s
  order : ∀ h' h₀ e₀, h₁ = h' ++ h₀ → Run h₀ e₀ → ∀ r, (e₀.graph.live r).filter e.graph.alive <+: e.graph.live r
  passes : ∀ h₄ e₃ m h₃ r, h₂ = h₄ ++ (e₃, m) :: h₃ → e₃.started? m = some r →
    (∀ x ∈ h₄, e₃.frames.length < x.1.frames.length) → ∃ purpose below, below.length = e₃.frames.length ∧
      (Underway purpose (e₃.graph.live r) below h₄ e ∨ Ended purpose (e₃.graph.live r) below h₄ e)
  attached : ∀ h' h₀ e₀, h₁ = h' ++ h₀ → Run h₀ e₀ → ∀ n,
    (e₀.graph.forest.node n).listeners <+: (e.graph.forest.node n).listeners
  deliveries : ∀ h₄ e₃ m h₃ n event, h₂ = h₄ ++ (e₃, m) :: h₃ → e₃.announced? m = some (n, event) →
    (∀ x ∈ h₄, e₃.frames.length < x.1.frames.length) →
      Delivering n event (e₃.graph.forest.listeners n event.kind) e₃.frames h₄ e ∨
        HasDelivered n event (e₃.graph.forest.listeners n event.kind) e₃.frames h₄ e
  methods : ∀ x ∈ h₂, ∀ n event model callback, x.1.heard? x.2 = some (n, event, .method model callback) →
    (x.1.perform x.2).turn = .environment (.call callback (.invocation model event))
  inputs : ∀ x ∈ h₂, ∀ n event model path record text t, x.1.heard? x.2 = some (n, event, .input model path record) →
    event.value = some text →
    (x.1.graph.model model).options.changeDetection.same (.string text) (x.1.graph.record record) = false →
    x.1.graph.walk? (x.1.graph.model model).data path.parents = some t →
      x.1.written? x.2 = some (t, path.last) ∧
        (t.index < x.1.graph.stores.size → (x.1.perform x.2).graph.property? t path.last = some (.string text))

theorem gone_since (run₁ : Run h₁ e₁) (resting : e₁.step? = none) (left : e₁.LetGo c)
    (mem : s ∈ (e₁.graph.compiler c).watchers) (run : Run (h₂ ++ h₁) e) : e.graph.alive s = false := by
  have exist := Graph.exists_of_fills? (run₁.owned.filling mem)
  have gone := run₁.gone_of_letGo resting left mem
  apply Bool.eq_false_iff.2
  intro alive
  rw [(run₁.alive_since run).2 s exist alive] at gone
  cases gone

theorem watcher_since (run₁ : Run h₁ e₁) (resting : e₁.step? = none) (left : e₁.LetGo c)
    (mem : s ∈ (e₁.graph.compiler c).watchers) (run : Run (h₂ ++ h₁) e) :
    e.graph.watcher? s = e₁.graph.watcher? s := by
  refine run₁.along (P := fun _ e => e.graph.watcher? s = e₁.graph.watcher? s) run rfl ?_
  intro h e m part earlier allowed same
  have exist := Graph.exists_of_fills? (run₁.owned.filling mem)
  have gone := run₁.gone_since resting left mem earlier
  rw [← same, Engine.watcher?_of_not_updated earlier.wellFormed allowed]
  · exact Nat.lt_of_lt_of_le exist (run₁.alive_since earlier).1
  · exact Engine.not_updated_of_gone allowed gone

theorem spared_of_dropped {h' h₀ : History} {e₀ : Engine} (run₁ : Run (h' ++ (e₀, .dropCompiler c) :: h₀) e₁)
    (other : s ∉ (e₁.graph.compiler c).watchers) :
    (e₀.perform (.dropCompiler c)).graph.alive s = e₀.graph.alive s := by
  obtain ⟨-, allowed, after⟩ := run₁.of_move
  have compiler : (e₀.perform (.dropCompiler c)).graph.compiler c = { e₀.graph.compiler c with dropped := true } := by
    simp [Engine.perform, allowed.2.1]
  have dropped : ((e₀.perform (.dropCompiler c)).graph.compiler c).dropped = true := by rw [compiler]
  apply Engine.alive_dropCompiler
  rwa [after.compiler_onward run₁ dropped, compiler] at other

theorem pass_since {h₄ h₃ : History} {e₃ : Engine} (run : Run (h₄ ++ (e₃, m) :: h₃) e)
    (started : e₃.started? m = some r)
    (within : ∀ x ∈ h₄, e₃.frames.length < x.1.frames.length) : ∃ purpose below, below.length = e₃.frames.length ∧
      (Underway purpose (e₃.graph.live r) below h₄ e ∨ Ended purpose (e₃.graph.live r) below h₄ e) := by
  obtain ⟨-, allowed, run₃⟩ := run.of_move
  obtain ⟨purpose, below, g, begun, depth⟩ := Engine.pass_of_started? allowed started
  rw [begun] at run₃
  rw [← depth] at within
  exact ⟨purpose, below, depth, run₃.underway_or_ended run within⟩

theorem delivery_since {h₄ h₃ : History} {e₃ : Engine} (run : Run (h₄ ++ (e₃, m) :: h₃) e)
    (announced : e₃.announced? m = some (n, event)) (within : ∀ x ∈ h₄, e₃.frames.length < x.1.frames.length) :
    Delivering n event (e₃.graph.forest.listeners n event.kind) e₃.frames h₄ e ∨
      HasDelivered n event (e₃.graph.forest.listeners n event.kind) e₃.frames h₄ e := by
  obtain ⟨-, -, run₃⟩ := run.of_move
  obtain ⟨g, begun⟩ := delivery_of_announced? announced
  rw [begun] at run₃
  exact run₃.delivering_or_delivered run within

/-- Once a compiler is let go, its watchers are gone for good, in passes under way as well. Its listeners stay and work,
and so do all other subscribers. -/
theorem letGo_stopped (run₁ : Run h₁ e₁) (resting : e₁.step? = none) (left : e₁.LetGo c) (run : Run (h₂ ++ h₁) e) :
    Stopped h₂ e₁ h₁ e c where
  gone s mem := by
    have gone := run₁.gone_since resting left mem run
    refine ⟨gone, run₁.watcher_since resting left mem run, ?_⟩
    intro r live
    rw [(List.mem_filter.1 live).2] at gone
    cases gone
  quiet x hx s mem := by
    obtain ⟨h, earlier, allowed⟩ := run.within_of_mem hx
    have idle := Engine.not_updated_of_gone allowed (run₁.gone_since resting left mem earlier)
    exact ⟨idle, Engine.invocation?_of_not_updated idle⟩
  skipped x hx s mem alive visited := by
    obtain ⟨h, earlier, allowed⟩ := run.within_of_mem hx
    exact Engine.perform_of_gone allowed visited (run₁.gone_since resting left mem earlier)
  slots x hx slot exist differs := by
    obtain ⟨h, earlier, allowed⟩ := run.within_of_mem hx
    by_cases started : ∃ c', x.2 = .init c'
    · obtain ⟨c', started⟩ := started
      refine .inr (.inl ⟨c', ?_, started⟩)
      -- a compiler that was dropped is not initialized any more
      rintro rfl
      have kept := allowed.2
      rw [started] at kept
      have dropped := kept.2
      rw [run₁.compiler_onward earlier left.1, left.1] at dropped
      cases dropped
    · rcases Engine.filler_of_differs allowed (fun c' same => started ⟨c', same⟩) exist differs with
        edited | ⟨t, w, updated, watcher, target⟩
      · exact .inl edited
      · refine .inr (.inr ⟨t, w, ?_, updated, watcher, target⟩)
        intro mem
        exact Engine.not_updated_of_gone allowed (run₁.gone_since resting left mem earlier) updated
  spared h' e₀ h₀ same s other := by
    subst same
    exact run₁.spared_of_dropped other
  order h' h₀ e₀ same run₀ r := by
    subst same
    rw [← List.append_assoc] at run
    exact run₀.live_since run r
  passes h₄ e₃ m h₃ r same started within := by
    subst same
    rw [List.append_assoc] at run
    exact run.pass_since started within
  attached h' h₀ e₀ same run₀ n := by
    subst same
    rw [← List.append_assoc] at run
    exact run₀.listeners_onward run n
  deliveries h₄ e₃ m h₃ n event same announced within := by
    subst same
    rw [List.append_assoc] at run
    exact run.delivery_since announced within
  methods x hx n event model callback heard := by
    obtain ⟨h, -, allowed⟩ := run.within_of_mem hx
    exact Engine.turn_of_method allowed heard
  inputs x hx n event model path record text t heard typed differs walk := by
    obtain ⟨h, -, allowed⟩ := run.within_of_mem hx
    exact Engine.written_of_input allowed heard typed differs walk

/-- A compiler is dropped by the callback of a watcher that sees a change before its own watchers do. -/
def closing : List Move :=
  [.createStore [("a", .string "x")], .createModel { data := ⟨0⟩, methods := [("hit", ⟨0⟩)], options := {} },
    .createWatcher ⟨0⟩ ⟨[], "a"⟩ ⟨1⟩,
    .edit (.createDocument
      [.element "p" [] [.text "{{a}}", .element "input" [("model", "a"), ("@click", "hit")] []]]),
    .createCompiler ⟨0⟩ "p" ⟨0⟩, .init ⟨0⟩, .createSubscriber none ⟨2⟩, .register (.property ⟨0⟩ "a") ⟨3⟩,
    .write ⟨0⟩ "a" (.string "y"), .step, .dropCompiler ⟨0⟩]

def closed : Engine := Engine.after {} closing

def lingering : List Move :=
  [.resume (.ok ()), .step, .step, .step, .step, .resume (.ok ()), .step, .step,
    .dispatch ⟨3⟩ ⟨"click", none⟩, .step, .resume (.ok ()), .step, .step,
    .input ⟨3⟩ "z", .step, .step, .resume (.ok ()), .step, .step, .resume (.ok ()), .step, .step, .step, .step]

def lingered : Engine := closed.after lingering

theorem lingered_letGo_stopped :
    closed.step? = none ∧ closed.LetGo ⟨0⟩ ∧ ¬ closed.Settled ∧
      (closed.graph.compiler ⟨0⟩).watchers = [⟨1⟩, ⟨2⟩] ∧
      Stopped (closed.trace lingering) closed (Engine.trace {} closing) lingered ⟨0⟩ ∧
      lingered.graph.live (.property ⟨0⟩ "a") = [⟨0⟩, ⟨3⟩] ∧
      lingered.graph.forest.shows (.text ⟨2⟩) = some "x" ∧
      lingered.graph.property? ⟨0⟩ "a" = some (.string "z") := by
  have run₁ : Run (Engine.trace {} closing) closed := Run.of_admits (by decide +kernel)
  have run : Run (closed.trace lingering ++ Engine.trace {} closing) lingered :=
    run₁.after lingering (by decide +kernel)
  have resting : closed.step? = none := by
    have idle : closed.step?.isNone = true := by decide +kernel
    exact Option.isNone_iff_eq_none.1 idle
  have left : closed.LetGo ⟨0⟩ := by decide +kernel
  refine ⟨resting, left, by decide +kernel, by decide +kernel, run₁.letGo_stopped resting left run, ?_⟩
  decide +kernel

end Run

end DataBinding
