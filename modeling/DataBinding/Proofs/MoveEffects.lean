import DataBinding.Proofs.CompilationEffects
import DataBinding.Proofs.EngineRuns

namespace DataBinding

open DataBinding.Graph (Changes)

def Purpose.turn (failures : List Error) : Purpose → Turn
  | .write key => .environment (.answer (.done (writeResult key failures)))
  | .notify => .environment (.answer (.failures failures))
  | .input key => .result (writeResult key failures)

def deliveryResult : Option Error → Except Error Unit
  | some err => .error err
  | none => .ok ()

def Graph.releaseAny (g : Graph) : Option SubscriberId → Graph
  | some s => g.release s
  | none => g

inductive Steps : Engine → Engine → Prop
  | rest {g : Graph} : Steps ⟨g, [], .next⟩ ⟨g, [], .environment (.answer (.done (.ok ())))⟩
  | pass {g : Graph} {purpose : Purpose} {running : Option SubscriberId} {failures : List Error}
    {frames : List Frame} :
    Steps ⟨g, .pass purpose running [] failures :: frames, .next⟩ ⟨g, frames, purpose.turn failures⟩
  | skip {g : Graph} {purpose : Purpose} {running : Option SubscriberId} {s : SubscriberId}
    {pending : List SubscriberId} {failures : List Error} {frames : List Frame} (gone : g.alive s = false) :
    Steps ⟨g, .pass purpose running (s :: pending) failures :: frames, .next⟩
      ⟨g, .pass purpose none pending failures :: frames, .next⟩
  | update {g : Graph} {purpose : Purpose} {running : Option SubscriberId} {s : SubscriberId}
    {pending : List SubscriberId} {failures : List Error} {frames : List Frame} (alive : g.alive s) :
    Steps ⟨g, .pass purpose running (s :: pending) failures :: frames, .next⟩
      (Engine.update ⟨g.retain s, .pass purpose (some s) pending failures :: frames, .next⟩ s)
  | delivery {g : Graph} {n : NodeId} {event : Event} {first : Option Error} {frames : List Frame} :
    Steps ⟨g, .delivery n event [] first :: frames, .next⟩
      ⟨{ g with forest := g.forest.release n }, frames, .environment (.answer (.done (deliveryResult first)))⟩
  | hear {g : Graph} {n : NodeId} {event : Event} {listener : Listener} {pending : List Listener}
    {first : Option Error} {frames : List Frame} :
    Steps ⟨g, .delivery n event (listener :: pending) first :: frames, .next⟩
      (Engine.hear ⟨g, .delivery n event pending first :: frames, .next⟩ event listener)
  | run {g : Graph} {s : SubscriberId} {frames : List Frame} :
    Steps ⟨g, .run s :: frames, .next⟩ ⟨g.release s, frames, .environment (.answer (.done (.ok ())))⟩
  | method {g : Graph} {frames : List Frame} :
    Steps ⟨g, .method :: frames, .next⟩ ⟨g, frames, .environment (.answer (.done (.ok ())))⟩
  | accept {g : Graph} {r : Except Error Unit} :
    Steps ⟨g, [], .result r⟩ ⟨g, [], .environment (.answer (.done r))⟩
  | acceptPass {g : Graph} {purpose : Purpose} {running : Option SubscriberId} {pending : List SubscriberId}
    {failures : List Error} {frames : List Frame} {r : Except Error Unit} :
    Steps ⟨g, .pass purpose running pending failures :: frames, .result r⟩
      ⟨g.releaseAny running, .pass purpose none pending (failures ++ failuresOf r) :: frames, .next⟩
  | acceptDelivery {g : Graph} {n : NodeId} {event : Event} {pending : List Listener} {first : Option Error}
    {frames : List Frame} {r : Except Error Unit} :
    Steps ⟨g, .delivery n event pending first :: frames, .result r⟩
      ⟨g, .delivery n event pending (first.or (failuresOf r).head?) :: frames, .next⟩
  | acceptRun {g : Graph} {s : SubscriberId} {frames : List Frame} {r : Except Error Unit} :
    Steps ⟨g, .run s :: frames, .result r⟩ ⟨g.release s, frames, .environment (.answer (.done r))⟩
  | acceptMethod {g : Graph} {frames : List Frame} {r : Except Error Unit} :
    Steps ⟨g, .method :: frames, .result r⟩ ⟨g, frames, .environment (.answer (.done r))⟩

inductive Updates (e : Engine) (s : SubscriberId) : Engine → Prop
  | notified {callback : CallbackId} (role : (e.graph.subscriber s).role = .call callback) :
    Updates e s { e with turn := .environment (.call callback .update) }
  | same {w : Watcher} (watcher : e.graph.watcher? s = some w)
    (same : w.policy.same (e.graph.current w) w.value = true) :
    Updates e s { e with graph := (e.graph.evaluate s w).2, turn := .result (.ok ()) }
  | called {w : Watcher} {callback : CallbackId} (watcher : e.graph.watcher? s = some w)
    (changed : w.policy.same (e.graph.current w) w.value = false) (reaction : w.reaction = .call callback) :
    Updates e s { e with
      graph := e.graph.renew s w
      turn := .environment (.call callback (.change w.model (e.graph.current w) w.value)) }
  | filled {w : Watcher} {slot : Slot} {f : Forest} (watcher : e.graph.watcher? s = some w)
    (changed : w.policy.same (e.graph.current w) w.value = false) (reaction : w.reaction.slot? = some slot)
    (fill : e.graph.forest.fill slot (e.graph.current w).text = .ok f) :
    Updates e s { e with
      graph := { (e.graph.renew s w).noted (e.graph.current w) w.reaction with forest := f }
      turn := .result (.ok ()) }
  | failed {w : Watcher} {slot : Slot} {err : DocumentError} (watcher : e.graph.watcher? s = some w)
    (changed : w.policy.same (e.graph.current w) w.value = false) (reaction : w.reaction.slot? = some slot)
    (fill : e.graph.forest.fill slot (e.graph.current w).text = .error err) :
    Updates e s { e with graph := e.graph.renew s w, turn := .result (.error (.document err)) }

namespace Engine

variable {e e' : Engine} {m : Move} {s : SubscriberId} {written : Option (StoreId × String)}
  {updated : Option SubscriberId}

theorem steps_of_step? (h : e.step? = some e') : Steps e e' := by
  obtain ⟨g, frames, turn⟩ := e
  cases turn with
  | environment reply => cases h
  | next =>
    simp only [step?, Option.some.injEq] at h
    subst h
    cases frames with
    | nil => exact .rest
    | cons frame frames =>
      cases frame with
      | pass purpose running pending failures =>
        cases pending with
        | nil => cases purpose <;> exact .pass
        | cons s pending =>
          simp only [proceed]
          split
          · next alive => exact .update alive
          · next gone => exact .skip (Bool.eq_false_iff.2 gone)
      | run s => exact .run
      | method => exact .method
      | delivery n event pending first =>
        cases pending with
        | nil => cases first <;> exact .delivery
        | cons listener pending => exact .hear
  | result r =>
    simp only [step?, Option.some.injEq] at h
    subst h
    cases frames with
    | nil => exact .accept
    | cons frame frames =>
      cases frame with
      | pass purpose running pending failures => cases running <;> exact .acceptPass
      | run s => exact .acceptRun
      | method => exact .acceptMethod
      | delivery n event pending first => exact .acceptDelivery

theorem steps_of_allows (h : e.Allows .step) : Steps e (e.perform .step) := by
  obtain ⟨e', he⟩ := Option.isSome_iff_exists.1 (h.1.1 rfl)
  rw [perform, he]
  exact steps_of_step? he

theorem updates_update (e : Engine) (s : SubscriberId) : Updates e s (e.update s) := by
  unfold update
  split
  · next callback hr => exact .notified hr
  · next w hr =>
    have hw : e.graph.watcher? s = some w := by rw [Graph.watcher?, hr]
    rcases Graph.refresh_cases e.graph s w with ⟨same, h⟩ | ⟨changed, h⟩
    · rw [h]
      exact .same hw same
    · rw [h]
      dsimp only
      split
      · next callback hreact => exact .called hw changed hreact
      · next hcall =>
        have forest : (e.graph.renew s w).forest = e.graph.forest :=
          (Graph.enrolled_evaluate e.graph s w).forest
        rcases Graph.present_cases (e.graph.renew s w) (e.graph.current w) w.reaction with
          ⟨hslot, -⟩ | ⟨slot, hslot, ⟨f, hf, hp⟩ | ⟨err, hf, hp⟩⟩
        · cases hreact : w.reaction with
          | call callback => exact absurd hreact (hcall callback)
          | _ => rw [hreact] at hslot; cases hslot
        · rw [hp]
          rw [forest] at hf
          exact .filled hw changed hslot hf
        · rw [hp]
          rw [forest] at hf
          exact .failed hw changed hslot hf

@[simp] theorem frames_update (e : Engine) (s : SubscriberId) : (e.update s).frames = e.frames := by
  have updates := updates_update e s
  generalize e.update s = e' at updates
  cases updates <;> rfl

theorem changes_noted (g : Graph) (v : Value) (reaction : Reaction) :
    Changes written updated g (g.noted v reaction) := by
  cases reaction <;> exact .of_same rfl rfl rfl rfl

theorem changes_update (e : Engine) (s : SubscriberId) :
    Changes written (some s) e.graph (e.update s).graph := by
  have updates := updates_update e s
  generalize e.update s = e' at updates
  cases updates with
  | notified _ => exact .refl _
  | same watcher _ => exact Graph.changes_evaluate _ (Graph.exists_of_watcher? watcher)
  | called watcher _ _ => exact Graph.changes_renew watcher
  | @filled w _ _ watcher _ _ _ =>
    refine ((Graph.changes_renew watcher).trans (changes_noted _ (e.graph.current w) w.reaction)).trans ?_
    exact .of_same rfl rfl rfl rfl
  | failed watcher _ _ _ => exact Graph.changes_renew watcher

theorem changes_startPass (e : Engine) (purpose : Purpose) (r : RegistryRef) :
    Changes written updated e.graph (e.startPass purpose r).graph := Graph.changes_prune _ _

theorem changes_startWrite (e : Engine) (purpose : Purpose) (s : StoreId) (key : String) (v : Value) :
    Changes (some (s, key)) updated e.graph (e.startWrite purpose s key v).graph := by
  refine (Graph.changes_install e.graph s key v).trans ?_
  exact Graph.changes_prune (e.graph.install s key v) (.property s key)

@[simp] theorem walk?_setRecord (g : Graph) (r : RecordId) (v : Value) (s : StoreId) (keys : List String) :
    (g.setRecord r v).walk? s keys = g.walk? s keys := by
  induction keys generalizing s with
  | nil => rfl
  | cons key keys ih =>
    simp only [Graph.walk?, ih]
    rfl

theorem hear_of_same {event : Event} {model : ModelId} {path : Path} {r : RecordId} {text : String}
    (htext : event.value = some text)
    (same : (e.graph.model model).options.changeDetection.same (.string text) (e.graph.record r) = true) :
    e.hear event (.input model path r) = { e with turn := .result (.ok ()) } := by
  simp only [hear, htext, same, if_true]

theorem hear_of_differs {event : Event} {model : ModelId} {path : Path} {r : RecordId} {text : String}
    {t : StoreId} (htext : event.value = some text)
    (differs : (e.graph.model model).options.changeDetection.same (.string text) (e.graph.record r) = false)
    (walk : e.graph.walk? (e.graph.model model).data path.parents = some t) :
    e.hear event (.input model path r) =
      startWrite { e with graph := e.graph.setRecord r (.string text) } (.input path.last) t path.last
        (.string text) := by
  simp only [hear, htext, differs, walk?_setRecord]
  rw [walk]
  rfl

theorem hear_of_lost {event : Event} {model : ModelId} {path : Path} {r : RecordId} {text : String}
    (htext : event.value = some text)
    (differs : (e.graph.model model).options.changeDetection.same (.string text) (e.graph.record r) = false)
    (lost : e.graph.walk? (e.graph.model model).data path.parents = none) :
    e.hear event (.input model path r) = { e with
      graph := e.graph.setRecord r (.string text), turn := .result (.error (.pathNotFound path)) } := by
  simp only [hear, htext, differs, walk?_setRecord, lost]
  rfl

theorem hear_cases (e : Engine) (event : Event) (listener : Listener) :
    ((∃ turn, e.hear event listener = { e with turn }) ∧ e.typed? event listener = none) ∨
      ∃ m path r text, listener = .input m path r ∧ event.value = some text ∧
        (e.graph.model m).options.changeDetection.same (.string text) (e.graph.record r) = false ∧
        ((e.graph.walk? (e.graph.model m).data path.parents = none ∧ e.typed? event listener = none ∧
            e.hear event listener = { e with
              graph := e.graph.setRecord r (.string text), turn := .result (.error (.pathNotFound path)) }) ∨
          ∃ t, e.graph.walk? (e.graph.model m).data path.parents = some t ∧
            e.typed? event listener = some (t, path.last) ∧
            e.hear event listener =
              startWrite { e with graph := e.graph.setRecord r (.string text) } (.input path.last) t path.last
                (.string text)) := by
  cases listener with
  | call callback => exact .inl ⟨⟨_, rfl⟩, rfl⟩
  | method m callback => exact .inl ⟨⟨_, rfl⟩, rfl⟩
  | input m path r =>
    cases htext : event.value with
    | none =>
      exact .inl ⟨⟨.result (.ok ()), by simp only [hear, htext]⟩,
        by simp only [typed?, htext, Option.bind_none]⟩
    | some text =>
      cases hsame : (e.graph.model m).options.changeDetection.same (.string text) (e.graph.record r) with
      | true =>
        refine .inl ⟨⟨.result (.ok ()), hear_of_same htext hsame⟩, ?_⟩
        simp only [typed?, htext, hsame, Option.bind_some, if_true]
      | false =>
        refine .inr ⟨m, path, r, text, rfl, rfl, hsame, ?_⟩
        cases hwalk : e.graph.walk? (e.graph.model m).data path.parents with
        | none =>
          refine .inl ⟨rfl, ?_, hear_of_lost htext hsame hwalk⟩
          simp only [typed?, htext, hsame, hwalk, Option.bind_some]
          rfl
        | some t =>
          refine .inr ⟨t, rfl, ?_, hear_of_differs htext hsame hwalk⟩
          simp only [typed?, htext, hsame, hwalk, Option.bind_some]
          rfl

theorem changes_hear (e : Engine) (event : Event) (listener : Listener) :
    Changes (e.typed? event listener) updated e.graph (e.hear event listener).graph := by
  rcases hear_cases e event listener with ⟨⟨turn, h⟩, -⟩
    | ⟨m, path, r, text, -, -, -, ⟨-, -, h⟩ | ⟨t, -, ht, h⟩⟩
  · rw [h]
    exact .refl _
  · rw [h]
    exact .of_same rfl rfl rfl rfl
  · rw [h, ht]
    have recorded : Changes (some (t, path.last)) updated e.graph (e.graph.setRecord r (.string text)) :=
      .of_same rfl rfl rfl rfl
    refine recorded.trans ?_
    exact changes_startWrite { e with graph := e.graph.setRecord r (.string text) } _ _ _ _

theorem changes_steps (h : Steps e e') : Changes (e.written? .step) (e.updated? .step) e.graph e'.graph := by
  cases h with
  | update alive =>
    simp only [updated?, alive, if_true]
    refine (Graph.changes_retain alive).trans ?_
    exact changes_update ⟨_, _, _⟩ _
  | hear =>
    next g n event listener pending first frames =>
    exact changes_hear ⟨g, .delivery n event pending first :: frames, .next⟩ event listener
  | delivery => exact .of_same rfl rfl rfl rfl
  | run => exact Graph.changes_release _ _
  | acceptPass =>
    next running _ _ _ _ =>
    cases running with
    | none => exact .refl _
    | some s => exact Graph.changes_release _ _
  | acceptRun => exact Graph.changes_release _ _
  | _ => exact .refl _

/-- Whoever is spoken of exists. -/
structure WellFormed (e : Engine) : Prop where
  readers : ∀ {r s}, s ∈ e.graph.readers r → s.index < e.graph.subscribers.size
  watchers : ∀ {s w}, e.graph.watcher? s = some w → e.graph.Fits w
  compilers : ∀ {c}, c.index < e.graph.compilers.size → (e.graph.compiler c).model.index < e.graph.models.size

theorem changes_releases (ss : List SubscriberId) (g : Graph) :
    Changes written updated g (ss.foldl Graph.release g) := by
  induction ss generalizing g with
  | nil => exact .refl g
  | cons s ss ih => exact (Graph.changes_release g s).trans (ih _)

theorem changes_perform (wf : e.WellFormed) (allowed : e.Allows m) :
    Changes (e.written? m) (e.updated? m) e.graph (e.perform m).graph := by
  have has := allowed.2
  cases m with
  | step => exact changes_steps (steps_of_allows allowed)
  | write s key v => exact changes_startWrite e _ _ _ _
  | writePath s path v =>
    simp only [perform, writePath, written?]
    cases e.graph.walk? s path.parents with
    | none => exact .refl _
    | some t => exact changes_startWrite e _ _ _ _
  | notify r => exact changes_startPass e _ _
  | run s =>
    refine (Graph.changes_retain has).trans ?_
    exact changes_update ⟨e.graph.retain s, .run s :: e.frames, e.turn⟩ s
  | call m name event =>
    simp only [perform, call]
    cases (e.graph.model m).methods.get? name <;> exact .refl _
  | dispatch n event => exact .of_same rfl rfl rfl rfl
  | input n text =>
    simp only [perform, input]
    cases e.graph.forest.setValue n text with
    | error err => exact .refl _
    | ok forest => exact .of_same rfl rfl rfl rfl
  | readPath reader s path => exact Graph.changes_readPath _ _ _ has
  | register r s => exact Graph.changes_register _ _ (Graph.exists_of_alive has)
  | createStore pairs => exact Graph.changes_createStore _ _
  | createRegistry => exact Graph.changes_createRegistry _
  | createModel m => exact Graph.changes_createModel _ _
  | createSubscriber identity callback => exact Graph.changes_createSubscriber _ _ _
  | createWatcher m path callback =>
    exact (Graph.Grows.of_gains (Graph.gains_createWatcher e.graph m path (.call callback))
      ⟨has, rfl⟩).changes
  | retain s => exact Graph.changes_retain has
  | release s => exact Graph.changes_release _ _
  | init c => exact (Graph.initializes_init (wf.compilers has.1)).extended.grows.changes
  | dropCompiler c =>
    have dropped : Changes (e.written? (.dropCompiler c)) (e.updated? (.dropCompiler c)) e.graph
        (e.graph.setCompiler c { e.graph.compiler c with dropped := true }) := .of_same rfl rfl rfl rfl
    refine (dropped.trans (changes_releases (e.graph.compiler c).watchers _)).trans ?_
    exact .of_same rfl rfl rfl rfl
  | edit change => exact .of_same rfl rfl rfl rfl
  | _ => exact .of_same rfl rfl rfl rfl

structure Steady (g g' : Graph) : Prop where
  compilers : g'.compilers = g.compilers
  size : g'.subscribers.size = g.subscribers.size
  holders : ∀ s, (g'.subscriber s).holders = (g.subscriber s).holders

namespace Steady

variable {g g₁ g₂ g₃ : Graph}

theorem of_subscribers {g' : Graph} (compilers : g'.compilers = g.compilers)
    (subscribers : g'.subscribers = g.subscribers) : Steady g g' :=
  ⟨compilers, by rw [subscribers], fun s => by rw [Graph.subscriber_congr subscribers]⟩

theorem trans (h : Steady g₁ g₂) (h' : Steady g₂ g₃) : Steady g₁ g₃ :=
  ⟨h'.compilers.trans h.compilers, h'.size.trans h.size, fun s => (h'.holders s).trans (h.holders s)⟩

theorem evaluate (g : Graph) (s : SubscriberId) (w : Watcher) : Steady g (g.evaluate s w).2 :=
  of_subscribers (Graph.enrolled_evaluate g s w).compilers (Graph.enrolled_evaluate g s w).subscribers

theorem renew (g : Graph) (s : SubscriberId) (w : Watcher) : Steady g (g.renew s w) := by
  refine (evaluate g s w).trans ⟨rfl, Graph.size_modifySubscriber _ _ _, ?_⟩
  intro t
  rw [Graph.renew, Graph.setWatched, Graph.subscriber_modifySubscriber]
  split <;> rfl

theorem noted (g : Graph) (v : Value) (reaction : Reaction) : Steady g (g.noted v reaction) := by
  cases reaction <;> exact of_subscribers rfl rfl

end Steady

theorem steady_update (e : Engine) (s : SubscriberId) : Steady e.graph (e.update s).graph := by
  have updates := updates_update e s
  generalize e.update s = e' at updates
  cases updates with
  | notified _ => exact .of_subscribers rfl rfl
  | same _ _ => exact .evaluate _ _ _
  | called _ _ _ => exact .renew _ _ _
  | @filled w _ _ _ _ _ _ =>
    refine ((Steady.renew e.graph s w).trans (.noted _ (e.graph.current w) w.reaction)).trans ?_
    exact .of_subscribers rfl rfl
  | failed _ _ _ _ => exact .renew _ _ _

theorem steady_hear (e : Engine) (event : Event) (listener : Listener) :
    Steady e.graph (e.hear event listener).graph := by
  rcases hear_cases e event listener with ⟨⟨turn, h⟩, -⟩
    | ⟨m, path, r, text, -, -, -, ⟨-, -, h⟩ | ⟨t, -, ht, h⟩⟩
  · rw [h]
    exact .of_subscribers rfl rfl
  · rw [h]
    exact .of_subscribers rfl rfl
  · rw [h]
    exact .of_subscribers rfl rfl

@[simp] theorem size_release (g : Graph) (s : SubscriberId) :
    (g.release s).subscribers.size = g.subscribers.size := by
  have size := Graph.size_modifySubscriber g s fun d => { d with holders := d.holders - 1 }
  unfold Graph.release
  dsimp only
  split
  · split <;> exact size
  · exact size

@[simp] theorem size_releases (ss : List SubscriberId) (g : Graph) :
    (ss.foldl Graph.release g).subscribers.size = g.subscribers.size := by
  induction ss generalizing g with
  | nil => rfl
  | cons s ss ih => exact (ih _).trans (size_release g s)

theorem size_steps (h : Steps e e') : e'.graph.subscribers.size = e.graph.subscribers.size := by
  cases h with
  | update _ => exact (steady_update _ _).size.trans (Graph.size_modifySubscriber _ _ _)
  | hear => exact (steady_hear _ _ _).size
  | run => exact size_release _ _
  | @acceptPass _ _ running _ _ _ _ =>
    cases running with
    | none => rfl
    | some s => exact size_release _ _
  | acceptRun => exact size_release _ _
  | _ => rfl

theorem size_perform (allowed : e.Allows m) :
    (e.perform m).graph.subscribers.size = e.graph.subscribers.size ∨
      (∃ identity callback, m = .createSubscriber identity callback) ∨
        (∃ model path callback, m = .createWatcher model path callback) ∨ ∃ c, m = .init c := by
  cases m with
  | step => exact .inl (size_steps (steps_of_allows allowed))
  | writePath s path v =>
    left
    simp only [perform, writePath]
    cases e.graph.walk? s path.parents <;> rfl
  | notify r => exact .inl (by simp [perform, notify, startPass])
  | run s =>
    have steady := steady_update ⟨e.graph.retain s, .run s :: e.frames, e.turn⟩ s
    exact .inl (steady.size.trans (Graph.size_modifySubscriber _ _ _))
  | call m name event =>
    left
    simp only [perform, call]
    cases (e.graph.model m).methods.get? name <;> rfl
  | input n text =>
    left
    simp only [perform, input]
    cases e.graph.forest.setValue n text <;> rfl
  | readPath reader s path => exact .inl (by rw [perform, (Graph.enrolled_readPath _ _ _ _).subscribers])
  | register r s => exact .inl (by rw [perform, (Graph.enrolled_register _ _ _).subscribers])
  | createSubscriber identity callback => exact .inr (.inl ⟨identity, callback, rfl⟩)
  | createWatcher m path callback => exact .inr (.inr (.inl ⟨m, path, callback, rfl⟩))
  | retain s => exact .inl (Graph.size_modifySubscriber _ _ _)
  | release s => exact .inl (size_release _ _)
  | init c => exact .inr (.inr (.inr ⟨c, rfl⟩))
  | dropCompiler c =>
    exact .inl (size_releases (e.graph.compiler c).watchers
      (e.graph.setCompiler c { e.graph.compiler c with dropped := true }))
  | _ => exact .inl rfl

theorem grows_perform (wf : e.WellFormed) (allowed : e.Allows m) :
    (e.perform m).graph.subscribers.size = e.graph.subscribers.size ∨
      (∃ identity callback, m = .createSubscriber identity callback) ∨
        Graph.Grows e.graph (e.perform m).graph := by
  have has := allowed.2
  rcases size_perform allowed with size | made | ⟨m, path, callback, rfl⟩ | ⟨c, rfl⟩
  · exact .inl size
  · exact .inr (.inl made)
  · exact .inr (.inr (.of_gains (Graph.gains_createWatcher e.graph m path (.call callback)) ⟨has, rfl⟩))
  · exact .inr (.inr (Graph.initializes_init (wf.compilers has.1)).extended.grows)

theorem perform_of_updated (allowed : e.Allows m) (h : e.updated? m = some s) :
    e.graph.alive s ∧ ∃ frames turn, e.perform m = update ⟨e.graph.retain s, frames, turn⟩ s := by
  cases m with
  | step =>
    have steps := steps_of_allows allowed
    generalize e.perform .step = e' at steps
    cases steps with
    | update alive =>
      simp only [updated?, alive, if_true, Option.some.injEq] at h
      subst h
      exact ⟨alive, _, _, rfl⟩
    | skip gone => simp [updated?, gone] at h
    | _ => cases h
  | run t =>
    simp only [updated?, Option.some.injEq] at h
    subst h
    exact ⟨allowed.2, _, _, rfl⟩
  | _ => cases h

variable {w : Watcher}

theorem watcher?_renew (g : Graph) (hw : g.watcher? s = some w) :
    (g.renew s w).watcher? s = some { w with value := g.current w } := by
  have exist := Graph.exists_of_watcher? hw
  rw [Graph.renew, Graph.watcher?_setWatched, (Graph.enrolled_evaluate g s w).subscribers,
    if_pos ⟨rfl, exist⟩]

@[simp] theorem watcher?_noted (g : Graph) (v : Value) (reaction : Reaction) (s : SubscriberId) :
    (g.noted v reaction).watcher? s = g.watcher? s := by
  cases reaction <;> rfl

theorem watcher?_update (hw : e.graph.watcher? s = some w) :
    (w.policy.same (e.graph.current w) w.value = true ∧ (e.update s).graph.watcher? s = some w) ∨
      (w.policy.same (e.graph.current w) w.value = false ∧
        (e.update s).graph.watcher? s = some { w with value := e.graph.current w }) := by
  have updates := updates_update e s
  generalize e.update s = e' at updates
  cases updates with
  | notified role => rw [Graph.watcher?, role] at hw; cases hw
  | same watcher same =>
    cases hw.symm.trans watcher
    refine .inl ⟨same, ?_⟩
    rw [Graph.watcher?_congr (Graph.enrolled_evaluate e.graph s w).subscribers]
    exact hw
  | called watcher changed _ =>
    cases hw.symm.trans watcher
    exact .inr ⟨changed, watcher?_renew _ hw⟩
  | filled watcher changed _ _ =>
    cases hw.symm.trans watcher
    exact .inr ⟨changed, (watcher?_noted _ _ _ _).trans (watcher?_renew _ hw)⟩
  | failed watcher changed _ _ =>
    cases hw.symm.trans watcher
    exact .inr ⟨changed, watcher?_renew _ hw⟩

@[simp] theorem property?_update (e : Engine) (s : SubscriberId) (t : StoreId) (k : String) :
    (e.update s).graph.property? t k = e.graph.property? t k := by
  have updates := updates_update e s
  generalize e.update s = e' at updates
  cases updates with
  | notified _ => rfl
  | same _ _ => exact (Graph.enrolled_evaluate _ _ _).property t k
  | called _ _ _ => exact (Graph.enrolled_evaluate _ _ _).property t k
  | @filled w _ _ _ _ _ _ =>
    refine Eq.trans ?_ ((Graph.enrolled_evaluate e.graph s w).property t k)
    cases w.reaction <;> rfl
  | failed _ _ _ _ => exact (Graph.enrolled_evaluate _ _ _).property t k

theorem listed_update (hw : e.graph.watcher? s = some w) (distinct : e.graph.Distinct s) :
    ∀ p ∈ e.graph.reads (e.graph.origin w) w.path, s ∈ (e.update s).graph.readers (.property p.1 p.2) := by
  have listed : ∀ p ∈ e.graph.reads (e.graph.origin w) w.path,
      s ∈ (e.graph.evaluate s w).2.readers (.property p.1 p.2) := Graph.mem_readers_readAlong distinct
  have updates := updates_update e s
  generalize e.update s = e' at updates
  intro p hp
  cases updates with
  | notified role => rw [Graph.watcher?, role] at hw; cases hw
  | same watcher _ =>
    cases hw.symm.trans watcher
    exact listed p hp
  | called watcher _ _ =>
    cases hw.symm.trans watcher
    exact listed p hp
  | filled watcher _ _ _ =>
    cases hw.symm.trans watcher
    have listed := listed p hp
    cases w.reaction <;> exact listed
  | failed watcher _ _ _ =>
    cases hw.symm.trans watcher
    exact listed p hp

@[simp] theorem watcher?_retain (g : Graph) (s t : SubscriberId) : (g.retain s).watcher? t = g.watcher? t := by
  have role : ((g.retain s).subscriber t).role = (g.subscriber t).role := by
    rw [Graph.retain, Graph.subscriber_modifySubscriber]
    split <;> rfl
  rw [Graph.watcher?, role, Graph.watcher?]

@[simp] theorem current_retain (g : Graph) (s : SubscriberId) (w : Watcher) :
    (g.retain s).current w = g.current w := by
  have property (t : StoreId) (k : String) : (g.retain s).property? t k = g.property? t k := rfl
  exact Graph.current_congr property rfl w

theorem watcher?_of_updated (allowed : e.Allows m) (updated : e.updated? m = some s)
    (hw : e.graph.watcher? s = some w) :
    (w.policy.same (e.graph.current w) w.value = true ∧ (e.perform m).graph.watcher? s = some w) ∨
      (w.policy.same (e.graph.current w) w.value = false ∧
        (e.perform m).graph.watcher? s = some { w with value := e.graph.current w }) := by
  obtain ⟨-, frames, turn, h⟩ := perform_of_updated allowed updated
  have retained := watcher?_update (e := ⟨e.graph.retain s, frames, turn⟩) ((watcher?_retain _ _ _).trans hw)
  rw [current_retain] at retained
  rw [h]
  exact retained

theorem watcher?_of_not_updated (wf : e.WellFormed) (allowed : e.Allows m)
    (hs : s.index < e.graph.subscribers.size) (others : e.updated? m ≠ some s) :
    (e.perform m).graph.watcher? s = e.graph.watcher? s := by
  rw [Graph.watcher?, (changes_perform wf allowed).role hs others, Graph.watcher?]

theorem watcher_eq_of_not_updated {w w' : Watcher} (wf : e.WellFormed) (allowed : e.Allows m)
    (hw : e.graph.watcher? s = some w) (hw' : (e.perform m).graph.watcher? s = some w')
    (others : e.updated? m ≠ some s) : w = w' := by
  rw [watcher?_of_not_updated wf allowed (Graph.exists_of_watcher? hw) others, hw] at hw'
  exact Option.some.inj hw'

end Engine

end DataBinding
