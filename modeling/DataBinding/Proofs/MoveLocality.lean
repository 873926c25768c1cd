import DataBinding.Proofs.CompilationLocality
import DataBinding.Proofs.MoveEffects

namespace DataBinding

variable {S : Share} {P Q : Kind → Nat → Prop} {e : Engine}

def Edit.Within (P : Kind → Nat → Prop) : Edit → Prop
  | .append p c => P .node p.index ∧ P .node c.index
  | .setAttribute n _ _ | .removeAttribute n _ | .setText n _ | .setValue n _ | .listen n _ _ | .retain n
  | .release n => P .node n.index
  | _ => True

def Move.Within (P : Kind → Nat → Prop) : Move → Prop
  | .write s _ v | .writePath s _ v => P .store s.index ∧ v.Within P
  | .notify r => r.Within P
  | .run s | .retain s | .release s => P .subscriber s.index
  | .call m _ _ | .createWatcher m _ _ => P .model m.index
  | .dispatch n _ | .input n _ => P .node n.index
  | .readPath reader s _ => (∀ r ∈ reader, P .subscriber r.index) ∧ P .store s.index
  | .register r s => r.Within P ∧ P .subscriber s.index
  | .createStore pairs => ∀ pair ∈ pairs, pair.2.Within P
  | .createModel m => P .store m.data.index
  | .createCompiler n _ m => P .node n.index ∧ P .model m.index
  | .init c | .dropCompiler c => P .compiler c.index
  | .edit change => change.Within P
  | _ => True

def Frame.Within (P : Kind → Nat → Prop) : Frame → Prop
  | .pass _ running pending _ => (∀ s ∈ running, P .subscriber s.index) ∧ ∀ s ∈ pending, P .subscriber s.index
  | .run s => P .subscriber s.index
  | .method => True
  | .delivery n _ pending _ => P .node n.index ∧ ∀ l ∈ pending, l.Within P

theorem Frame.Within.mono {f : Frame} (h : f.Within P) (le : ∀ kind i, P kind i → Q kind i) : f.Within Q := by
  cases f with
  | pass _ _ _ _ => exact ⟨fun s mem => le _ _ (h.1 s mem), fun s mem => le _ _ (h.2 s mem)⟩
  | run s => exact le _ _ h
  | method => trivial
  | delivery _ _ _ _ => exact ⟨le _ _ h.1, fun l mem => (h.2 l mem).mono le⟩

namespace Engine

def splice (S : Share) (e : Engine) (b : Graph) : Engine := { e with graph := e.graph.splice S b }

structure Closed (S : Share) (e : Engine) : Prop where
  graph : e.graph.Closed S
  frames : ∀ f ∈ e.frames, f.Within (S.Has e.graph)

/-- What a move does stays on a side and comes out the same whatever the other side is like. The work below the
innermost is not looked at. -/
structure Acts (S : Share) (act : Engine → Engine) (e : Engine) : Prop where
  closed : (act e).Closed S
  larger : e.graph.Larger (act e).graph
  splice : ∀ b, act (e.splice S b) = (act e).splice S b

namespace Acts

variable {act act' : Engine → Engine}

theorem of_local {op : Graph → Graph} (h : Graph.Local S op e.graph) (frames : List Frame) (turn : Turn)
    (fine : ∀ f ∈ frames, f.Within (S.Has (op e.graph))) (same : act e = ⟨op e.graph, frames, turn⟩)
    (same' : ∀ b, act (e.splice S b) = ⟨op (e.graph.splice S b), frames, turn⟩) : Acts S act e where
  closed := by
    rw [same]
    exact ⟨h.closed, fine⟩
  larger := by
    rw [same]
    exact h.larger
  splice b := by rw [same', same, h.splice, Engine.splice]

theorem of_graph (closed : e.Closed S) {op : Graph → Graph} (h : Graph.Local S op e.graph) (turn : Turn)
    (same : act e = ⟨op e.graph, e.frames, turn⟩)
    (same' : ∀ b, act (e.splice S b) = ⟨op (e.graph.splice S b), e.frames, turn⟩) : Acts S act e :=
  .of_local h _ _ (fun f mem => (closed.frames f mem).mono fun _ _ has => has.mono h.larger) same same'

theorem comp (h : Acts S act e) (h' : Acts S act' (act e)) : Acts S (fun e => act' (act e)) e where
  closed := h'.closed
  larger := h.larger.trans h'.larger
  splice b := by rw [h.splice, h'.splice]

theorem congr (same : act e = act' e) (same' : ∀ b, act (e.splice S b) = act' (e.splice S b)) (h : Acts S act' e) :
    Acts S act e where
  closed := by
    rw [same]
    exact h.closed
  larger := by
    rw [same]
    exact h.larger
  splice b := by rw [same', h.splice, same]

end Acts

variable {s : SubscriberId} {w : Watcher} {slot : Slot}

theorem update_of_same (watcher : e.graph.watcher? s = some w)
    (same : w.policy.same (e.graph.current w) w.value = true) :
    e.update s = { e with graph := (e.graph.evaluate s w).2, turn := .result (.ok ()) } := by
  have updates := updates_update e s
  generalize e.update s = e' at updates
  cases updates with
  | notified role => rw [Graph.watcher?, role] at watcher; cases watcher
  | same watcher' _ => cases watcher.symm.trans watcher'; rfl
  | called watcher' changed _ => cases watcher.symm.trans watcher'; rw [same] at changed; cases changed
  | filled watcher' changed _ _ => cases watcher.symm.trans watcher'; rw [same] at changed; cases changed
  | failed watcher' changed _ _ => cases watcher.symm.trans watcher'; rw [same] at changed; cases changed

theorem update_of_call {callback : CallbackId} (watcher : e.graph.watcher? s = some w)
    (changed : w.policy.same (e.graph.current w) w.value = false) (reaction : w.reaction = .call callback) :
    e.update s = { e with
      graph := e.graph.renew s w
      turn := .environment (.call callback (.change w.model (e.graph.current w) w.value)) } := by
  have updates := updates_update e s
  generalize e.update s = e' at updates
  cases updates with
  | notified role => rw [Graph.watcher?, role] at watcher; cases watcher
  | same watcher' same => cases watcher.symm.trans watcher'; rw [changed] at same; cases same
  | called watcher' _ reaction' =>
    cases watcher.symm.trans watcher'
    cases reaction.symm.trans reaction'
    rfl
  | filled watcher' _ reaction' _ => cases watcher.symm.trans watcher'; rw [reaction] at reaction'; cases reaction'
  | failed watcher' _ reaction' _ => cases watcher.symm.trans watcher'; rw [reaction] at reaction'; cases reaction'

theorem update_of_slot (watcher : e.graph.watcher? s = some w)
    (changed : w.policy.same (e.graph.current w) w.value = false) (reaction : w.reaction.slot? = some slot) :
    e.update s = match e.graph.forest.fill slot (e.graph.current w).text with
      | .ok f => { e with
        graph := { (e.graph.renew s w).noted (e.graph.current w) w.reaction with forest := f }
        turn := .result (.ok ()) }
      | .error err => { e with graph := e.graph.renew s w, turn := .result (.error (.document err)) } := by
  have updates := updates_update e s
  generalize e.update s = e' at updates
  cases updates with
  | notified role => rw [Graph.watcher?, role] at watcher; cases watcher
  | same watcher' same => cases watcher.symm.trans watcher'; rw [changed] at same; cases same
  | called watcher' _ reaction' => cases watcher.symm.trans watcher'; rw [reaction'] at reaction; cases reaction
  | filled watcher' _ reaction' fill =>
    cases watcher.symm.trans watcher'
    cases reaction.symm.trans reaction'
    rw [fill]
  | failed watcher' _ reaction' fill =>
    cases watcher.symm.trans watcher'
    cases reaction.symm.trans reaction'
    rw [fill]

theorem update_of_role {callback : CallbackId} (role : (e.graph.subscriber s).role = .call callback) :
    e.update s = { e with turn := .environment (.call callback .update) } := by
  rw [update, role]

theorem reaction_cases (reaction : Reaction) :
    (∃ callback, reaction = .call callback) ∨ ∃ slot, reaction.slot? = some slot := by
  cases reaction with
  | call callback => exact .inl ⟨callback, rfl⟩
  | _ => exact .inr ⟨_, rfl⟩

theorem has_of_slot? {reaction : Reaction} (within : reaction.Within P) (slot? : reaction.slot? = some slot) :
    P .node slot.node.index := by
  cases reaction with
  | call _ => cases slot?
  | showText _ => cases slot?; exact within
  | showAttribute _ _ => cases slot?; exact within
  | showValue _ _ => cases slot?; exact within.1

@[simp] theorem forest_renew (g : Graph) (s : SubscriberId) (w : Watcher) (v : Value) (reaction : Reaction) :
    ((g.renew s w).noted v reaction).forest = g.forest := by
  have same := (Graph.enrolled_evaluate g s w).forest
  cases reaction <;> exact same

theorem acts_update (closed : e.Closed S) (named : S.Has e.graph .subscriber s.index) : Acts S (·.update s) e := by
  have role (b : Graph) : (e.splice S b).graph.subscriber s = e.graph.subscriber s := Graph.subscriber_splice named.1
  have watcher? (b : Graph) : (e.splice S b).graph.watcher? s = e.graph.watcher? s := Graph.watcher?_splice named.1
  cases hrole : (e.graph.subscriber s).role with
  | call callback =>
    exact .of_graph closed (.id closed.graph) _ (update_of_role hrole) fun b => update_of_role (by rw [role, hrole])
  | watch w =>
    have watcher : e.graph.watcher? s = some w := by rw [Graph.watcher?, hrole]
    have within := closed.graph.watcher named.1 watcher
    have current (b : Graph) : (e.splice S b).graph.current w = e.graph.current w :=
      Graph.current_splice closed.graph named within
    have renewed := Graph.local_renew closed.graph named within
    cases changed : w.policy.same (e.graph.current w) w.value with
    | true =>
      exact .of_graph closed (Graph.yields_evaluate closed.graph named within).locally _
        (update_of_same watcher changed) fun b => update_of_same ((watcher? b).trans watcher) (by rw [current, changed])
    | false =>
      rcases reaction_cases w.reaction with ⟨callback, reaction⟩ | ⟨slot, reaction⟩
      · refine .of_graph closed renewed _ (update_of_call watcher changed reaction) fun b => ?_
        rw [update_of_call ((watcher? b).trans watcher) (by rw [current, changed]) reaction, current]
        rfl
      · have noted := renewed.comp (Graph.local_noted renewed.closed (e.graph.current w)
          (within.reaction.mono fun _ _ has => has.mono renewed.larger))
        have below := (has_of_slot? within.reaction reaction).mono noted.larger
        have filled := Graph.tries_fill noted.closed below (e.graph.current w).text
        have update' (b : Graph) := update_of_slot ((watcher? b).trans watcher) (by rw [current, changed]) reaction
        have spliced (b : Graph) : (((e.graph.renew s w).noted (e.graph.current w) w.reaction).splice S b).forest =
            (e.splice S b).graph.forest := by
          change Forest.splice _ _ _ = _
          rw [forest_renew]
          rfl
        simp only [current] at update'
        cases filled with
        | fails err same same' =>
          rw [forest_renew] at same
          simp only [spliced] at same'
          refine .of_graph closed renewed (.result (.error (.document err))) ?_ fun b => ?_
          · rw [update_of_slot watcher changed reaction, same]
          · rw [update', same']
            rfl
        | does change same same' locally =>
          rw [forest_renew] at same
          simp only [spliced] at same'
          have filled := noted.comp locally
          refine .of_graph closed filled (.result (.ok ())) ?_ fun b => ?_
          · rw [update_of_slot watcher changed reaction, same, Graph.inForest, forest_renew]
          · rw [update', same', Graph.inForest, forest_renew]
            rfl

theorem acts_startPass (closed : e.Closed S) (purpose : Purpose) {r : RegistryRef} (named : r.Within (S.Has e.graph)) :
    Acts S (·.startPass purpose r) e := by
  have pruned := Graph.local_prune closed.graph named
  refine .of_local pruned (.pass purpose none (e.graph.live r) [] :: e.frames) .next ?_ rfl fun b => ?_
  · intro f mem
    rcases List.mem_cons.1 mem with rfl | mem
    · refine ⟨fun _ => nofun, fun s mem => ?_⟩
      exact (closed.graph.readers named s (List.mem_filter.1 mem).1).mono pruned.larger
    · exact (closed.frames f mem).mono fun _ _ has => has.mono pruned.larger
  · rw [startPass]
    change (⟨_, .pass purpose none ((e.graph.splice S b).live r) [] :: e.frames, _⟩ : Engine) = _
    rw [Graph.live_splice closed.graph named]
    rfl

theorem acts_startWrite (closed : e.Closed S) (purpose : Purpose) {s : StoreId} (here : S.Has e.graph .store s.index)
    (key : String) {v : Value} (within : v.Within (S.Has e.graph)) : Acts S (·.startWrite purpose s key v) e := by
  have installed := Graph.local_install closed.graph here.1 key within
  have first : Acts S (fun e => { e with graph := e.graph.install s key v }) e :=
    .of_graph closed installed _ rfl fun _ => rfl
  exact first.comp (acts_startPass first.closed purpose (r := .property s key) (here.mono installed.larger))

theorem hear_of_missing {event : Event} {m : ModelId} {path : Path} {r : RecordId} {text : String}
    (typed : event.value = some text)
    (differs : (e.graph.model m).options.changeDetection.same (.string text) (e.graph.record r) = false)
    (walk : e.graph.walk? (e.graph.model m).data path.parents = none) :
    e.hear event (.input m path r) = { e with
      graph := e.graph.setRecord r (.string text), turn := .result (.error (.pathNotFound path)) } := by
  simp only [hear, typed, differs, walk?_setRecord, walk, Bool.false_eq_true, if_false]

theorem acts_hear (closed : e.Closed S) (event : Event) {listener : Listener}
    (within : listener.Within (S.Has e.graph)) : Acts S (·.hear event listener) e := by
  cases listener with
  | call callback => exact .of_graph closed (.id closed.graph) _ rfl fun _ => rfl
  | method m callback => exact .of_graph closed (.id closed.graph) _ rfl fun _ => rfl
  | input m path r =>
    have model (b : Graph) : (e.splice S b).graph.model m = e.graph.model m := Graph.model_splice within.1.1
    have record (b : Graph) : (e.splice S b).graph.record r = e.graph.record r := Graph.record_splice within.2.1
    have data := closed.graph.data within.1
    have walk (b : Graph) : (e.splice S b).graph.walk? (e.graph.model m).data path.parents =
        e.graph.walk? (e.graph.model m).data path.parents := Graph.walk?_splice closed.graph data.1 path.parents
    cases typed : event.value with
    | none =>
      refine .of_graph closed (.id closed.graph) (.result (.ok ())) ?_ fun b => ?_
      · simp only [hear, typed]
      · simp only [hear, typed]
        rfl
    | some text =>
      have recorded := Graph.local_setRecord closed.graph within.2.1 (.string text)
      cases same : (e.graph.model m).options.changeDetection.same (.string text) (e.graph.record r) with
      | true =>
        exact .of_graph closed (.id closed.graph) _ (hear_of_same typed same) fun b =>
          hear_of_same typed (by rw [model, record, same])
      | false =>
        cases found : e.graph.walk? (e.graph.model m).data path.parents with
        | none =>
          exact .of_graph closed recorded _ (hear_of_missing typed same found) fun b =>
            hear_of_missing typed (by rw [model, record, same]) (by rw [model, walk, found])
        | some t =>
          have first : Acts S (fun e => { e with graph := e.graph.setRecord r (.string text) }) e :=
            .of_graph closed recorded _ rfl fun _ => rfl
          have target := (Graph.has_of_walk? closed.graph data found).mono recorded.larger
          refine .congr (hear_of_differs typed same found) (fun b => ?_)
            (first.comp (acts_startWrite first.closed (.input path.last) target path.last fun _ => Value.noConfusion))
          exact hear_of_differs typed (by rw [model, record, same]) (by rw [model, walk, found])

variable {g : Graph} {f : Frame} {frames : List Frame} {turn : Turn}

theorem Closed.inner (closed : Closed S ⟨g, f :: frames, turn⟩) : ∀ f ∈ frames, f.Within (S.Has g) := fun f mem =>
  closed.frames f (List.mem_cons_of_mem _ mem)

theorem within_cons {g' : Graph} (closed : Closed S ⟨g, f :: frames, turn⟩) (larger : g.Larger g') (f' : Frame)
    (fine : f'.Within (S.Has g)) : ∀ f ∈ f' :: frames, f.Within (S.Has g') := by
  intro f mem
  rcases List.mem_cons.1 mem with rfl | mem
  · exact fine.mono fun _ _ has => has.mono larger
  · exact (closed.inner f mem).mono fun _ _ has => has.mono larger

theorem acts_update_next {purpose : Purpose} {running : Option SubscriberId} {s : SubscriberId}
    {pending : List SubscriberId} {failures : List Error}
    (closed : Closed S ⟨g, .pass purpose running (s :: pending) failures :: frames, turn⟩) :
    Acts S proceed ⟨g, .pass purpose running (s :: pending) failures :: frames, turn⟩ := by
  have within := closed.frames _ List.mem_cons_self
  have named := within.2 s List.mem_cons_self
  have others : ∀ t ∈ pending, S.Has g .subscriber t.index := fun t mem => within.2 t (List.mem_cons_of_mem _ mem)
  have idle : ∀ t ∈ (none : Option SubscriberId), S.Has g .subscriber t.index := fun _ => nofun
  have alive' (b : Graph) : (g.splice S b).alive s = g.alive s := Graph.alive_splice named.1
  by_cases alive : g.alive s = true
  · have retained := Graph.local_retain closed.graph named.1
    have begun : Acts S
        (fun e => ⟨e.graph.retain s, .pass purpose (some s) pending failures :: frames, turn⟩)
        ⟨g, .pass purpose running (s :: pending) failures :: frames, turn⟩ := by
      refine .of_local retained _ _ (within_cons closed retained.larger (.pass _ _ _ _) ⟨?_, others⟩) rfl fun _ => rfl
      rintro _ ⟨⟩
      exact named
    refine .congr ?_ (fun b => ?_) (begun.comp (acts_update begun.closed (named.mono retained.larger)))
    · simp only [proceed, alive, if_true]
    · simp only [proceed, splice, alive', alive, if_true]
  · let f : Frame := .pass purpose none pending failures
    have fine := within_cons closed (.refl _) f ⟨idle, others⟩
    refine .of_local (.id closed.graph) (f :: frames) turn fine ?_ fun b => ?_
    · exact if_neg alive
    · exact if_neg (by rw [← alive' b] at alive; exact alive)

theorem acts_proceed (closed : e.Closed S) : Acts S proceed e := by
  obtain ⟨g, frames, turn⟩ := e
  cases frames with
  | nil => exact .of_graph closed (.id closed.graph) _ rfl fun _ => rfl
  | cons f frames =>
    have within := closed.frames f List.mem_cons_self
    cases f with
    | pass purpose running pending failures =>
      cases pending with
      | nil =>
        exact .of_local (.id closed.graph) frames (purpose.turn failures) closed.inner (by cases purpose <;> rfl)
          fun _ => by cases purpose <;> rfl
      | cons s pending => exact acts_update_next closed
    | run s =>
      have released := Graph.local_release closed.graph within.1
      refine .of_local released frames _ ?_ rfl fun _ => rfl
      exact fun f mem => (closed.inner f mem).mono fun _ _ has => has.mono released.larger
    | method => exact .of_local (.id closed.graph) frames _ closed.inner rfl fun _ => rfl
    | delivery n event pending first =>
      cases pending with
      | nil =>
        have released := Graph.local_releaseNode closed.graph within.1.1
        refine .of_local released frames _ ?_ rfl fun _ => rfl
        exact fun f mem => (closed.inner f mem).mono fun _ _ has => has.mono released.larger
      | cons listener pending =>
        have begun : Acts S (fun e => ⟨e.graph, .delivery n event pending first :: frames, turn⟩)
            ⟨g, .delivery n event (listener :: pending) first :: frames, turn⟩ := by
          refine .of_local (.id closed.graph) _ _ (within_cons closed (.refl _) (.delivery _ _ _ _) ⟨within.1, ?_⟩) rfl
            fun _ => rfl
          exact fun l mem => within.2 l (List.mem_cons_of_mem _ mem)
        refine .congr ?_ (fun b => ?_)
          (begun.comp (acts_hear begun.closed event (within.2 listener List.mem_cons_self)))
        · rfl
        · rfl

theorem acts_accept (closed : e.Closed S) (r : Except Error Unit) : Acts S (·.accept r) e := by
  obtain ⟨g, frames, turn⟩ := e
  cases frames with
  | nil => exact .of_graph closed (.id closed.graph) _ rfl fun _ => rfl
  | cons f frames =>
    have within := closed.frames f List.mem_cons_self
    cases f with
    | pass purpose running pending failures =>
      let f : Frame := .pass purpose none pending (failures ++ failuresOf r)
      have fine : f.Within (S.Has g) := ⟨fun _ => nofun, within.2⟩
      cases running with
      | none =>
        exact .of_local (.id closed.graph) (f :: frames) .next (within_cons closed (.refl _) f fine) rfl fun _ => rfl
      | some s =>
        have released := Graph.local_release closed.graph (within.1 s rfl).1
        exact .of_local released (f :: frames) .next (within_cons closed released.larger f fine) rfl fun _ => rfl
    | run s =>
      have released := Graph.local_release closed.graph within.1
      refine .of_local released frames _ ?_ rfl fun _ => rfl
      exact fun f mem => (closed.inner f mem).mono fun _ _ has => has.mono released.larger
    | method => exact .of_local (.id closed.graph) frames _ closed.inner rfl fun _ => rfl
    | delivery n event pending first =>
      let f : Frame := .delivery n event pending (first.or (failuresOf r).head?)
      exact .of_local (.id closed.graph) (f :: frames) .next (within_cons closed (.refl _) f within) rfl fun _ => rfl

theorem acts_step (closed : e.Closed S) : Acts S (·.perform .step) e := by
  obtain ⟨g, frames, turn⟩ := e
  cases turn with
  | environment reply => exact .of_graph closed (.id closed.graph) _ rfl fun _ => rfl
  | next => exact .congr rfl (fun _ => rfl) (acts_proceed closed)
  | result r => exact .congr rfl (fun _ => rfl) (acts_accept closed r)

theorem acts_edit (closed : e.Closed S) {change : Edit} (within : change.Within (S.Has e.graph)) :
    Graph.Local S (·.inForest change.apply) e.graph := by
  have graph := closed.graph
  have attempt {op : Forest → Except DocumentError Forest} (tries : Graph.Tries S op e.graph) :
      Graph.Local S (·.inForest fun f => (op f).toOption.getD f) e.graph := by
    cases tries with
    | fails err same same' =>
      refine .of_still graph ?_ fun b => ?_
      · rw [same]
        rfl
      · rw [same']
        rfl
    | does change same same' locally =>
      refine .congr_forest ?_ (fun b => ?_) locally
      · rw [same]
        rfl
      · rw [same']
        rfl
  cases change with
  | createDocument trees => exact Graph.local_createDocument graph trees
  | createElement tag => exact Graph.local_create graph _
  | createText content => exact Graph.local_create graph _
  | createFragment => exact Graph.local_create graph _
  | append p c => exact attempt (Graph.tries_append graph within.1 within.2)
  | setAttribute n name value => exact attempt (Graph.tries_setAttribute graph within.1 name value)
  | removeAttribute n name => exact Graph.local_removeAttribute graph within.1 name
  | setText n text => exact attempt (Graph.tries_setText graph within text)
  | setValue n value => exact attempt (Graph.tries_setValue graph within.1 value)
  | listen n event callback => exact Graph.local_listen graph within.1 event trivial
  | retain n => exact Graph.local_retainNode graph within.1
  | release n => exact Graph.local_releaseNode graph within.1

theorem acts_dispatch (closed : e.Closed S) {n : NodeId} (here : S.Has e.graph .node n.index) (event : Event) :
    Acts S (·.dispatch n event) e := by
  have retained := Graph.local_retainNode closed.graph here.1
  have node (b : Graph) : (e.graph.splice S b).forest.node n = e.graph.forest.node n := Graph.node_splice here.1
  refine .of_local retained (.delivery n event (e.graph.forest.listeners n event.kind) none :: e.frames) .next ?_ rfl
    fun b => ?_
  · intro f mem
    rcases List.mem_cons.1 mem with rfl | mem
    · refine ⟨here.mono retained.larger, fun l mem => ?_⟩
      obtain ⟨⟨kind, l'⟩, mem, found⟩ := List.mem_filterMap.1 mem
      have within := (closed.graph.node here.1).listeners _ mem
      simp only [Option.ite_none_right_eq_some, Option.some.injEq] at found
      rw [← found.2]
      exact within.mono fun _ _ has => has.mono retained.larger
    · exact (closed.frames f mem).mono fun _ _ has => has.mono retained.larger
  · simp only [dispatch, splice, Forest.listeners, node]
    rfl

theorem acts_writePath (closed : e.Closed S) {s : StoreId} {path : Path} {v : Value}
    (within : (Move.writePath s path v).Within (S.Has e.graph)) : Acts S (·.writePath s path v) e := by
  have graph := closed.graph
  have walk (b : Graph) : (e.splice S b).graph.walk? s path.parents = e.graph.walk? s path.parents :=
    Graph.walk?_splice graph within.1.1 path.parents
  cases found : e.graph.walk? s path.parents with
  | none =>
    refine .of_graph closed (.id graph) (.environment (.answer (.done (.error (.pathNotFound path))))) ?_ fun b => ?_
    · simp only [writePath, found]
      rfl
    · simp only [writePath, walk, found]
      rfl
  | some t =>
    refine .congr ?_ (fun b => ?_)
      (acts_startWrite closed (.write path.last) (Graph.has_of_walk? graph within.1 found) path.last within.2)
    · simp only [writePath, found]
      rfl
    · simp only [writePath, walk, found]
      rfl

theorem acts_run (closed : e.Closed S) {s : SubscriberId} (within : (Move.run s).Within (S.Has e.graph)) :
    Acts S (·.run s) e := by
  have retained := Graph.local_retain closed.graph within.1
  have begun : Acts S (fun e' => { e' with graph := e'.graph.retain s, frames := .run s :: e.frames }) e := by
    refine .of_local retained (.run s :: e.frames) e.turn ?_ rfl fun _ => rfl
    intro f mem
    rcases List.mem_cons.1 mem with rfl | mem
    · exact within.mono retained.larger
    · exact (closed.frames f mem).mono fun _ _ has => has.mono retained.larger
  exact .congr rfl (fun _ => rfl) (begun.comp (acts_update begun.closed (within.mono retained.larger)))

theorem acts_call (closed : e.Closed S) {m : ModelId} {name : String} {event : Event}
    (within : (Move.call m name event).Within (S.Has e.graph)) : Acts S (·.call m name event) e := by
  have graph := closed.graph
  have model (b : Graph) : (e.splice S b).graph.model m = e.graph.model m := Graph.model_splice within.1
  cases found : (e.graph.model m).methods.get? name with
  | none =>
    refine .of_graph closed (.id graph) (.environment (.answer (.done (.error (.unknownMethod name "call"))))) ?_
      fun b => ?_
    · simp only [call, found]
      rfl
    · simp only [call, model, found]
      rfl
  | some callback =>
    refine .of_local (.id graph) (.method :: e.frames) (.environment (.call callback (.invocation m event))) ?_ ?_
      fun b => ?_
    · intro f mem
      rcases List.mem_cons.1 mem with rfl | mem
      · trivial
      · exact closed.frames f mem
    · simp only [call, found]
    · simp only [call, model, found]
      rfl

theorem acts_input (closed : e.Closed S) {n : NodeId} {text : String}
    (within : (Move.input n text).Within (S.Has e.graph)) : Acts S (·.input n text) e := by
  have graph := closed.graph
  cases Graph.tries_setValue graph within.1 text with
  | fails err same same' =>
    refine .of_graph closed (.id graph) (.environment (.answer (.done (.error (.document err))))) ?_ fun b => ?_
    · simp only [input, same]
      rfl
    · simp only [input, splice, same']
      rfl
  | does change same same' locally =>
    have set : Acts S (fun e => { e with graph := e.graph.inForest change }) e :=
      .of_graph closed locally _ rfl fun _ => rfl
    have dispatched := acts_dispatch set.closed (within.mono locally.larger) ⟨"input", some text⟩
    refine .congr ?_ (fun b => ?_) (set.comp dispatched)
    · simp only [input, same]
      rfl
    · simp only [input, splice, same']
      rfl

theorem acts_perform (closed : e.Closed S) {m : Move} (within : m.Within (S.Has e.graph)) :
    Acts S (·.perform m) e := by
  have graph := closed.graph
  have still {op : Graph → Graph} (h : Graph.Local S op e.graph) :
      Acts S (fun e => { e with graph := op e.graph }) e := .of_graph closed h _ rfl fun _ => rfl
  cases m with
  | step => exact acts_step closed
  | resume r => exact .of_graph closed (.id graph) _ rfl fun _ => rfl
  | write s key v => exact acts_startWrite closed _ within.1 key within.2
  | writePath s path v => exact acts_writePath closed within
  | notify r => exact acts_startPass closed _ within
  | run s => exact acts_run closed within
  | call m name event => exact acts_call closed within
  | dispatch n event => exact acts_dispatch closed within event
  | input n text => exact acts_input closed within
  | readPath reader s path =>
    exact still (Graph.yields_readAlong graph reader within.1 within.2 path.last path.parents).locally
  | register r s => exact still (Graph.local_register graph within.1 within.2)
  | createStore pairs => exact still (Graph.local_createStore graph within)
  | createRegistry => exact still (Graph.local_createRegistry graph)
  | createModel m => exact still (Graph.local_createModel graph within)
  | createSubscriber identity callback =>
    exact still (Graph.local_createSubscriber graph identity (.call callback) trivial)
  | createWatcher m path callback =>
    exact still (Graph.yields_createWatcher graph within path (.call callback) trivial).locally
  | retain s => exact still (Graph.local_retain graph within.1)
  | release s => exact still (Graph.local_release graph within.1)
  | createCompiler document selector m =>
    have added := Graph.local_addCompiler graph (d := { document, selector, model := m })
      ⟨within.1, within.2, fun _ mem => absurd mem (Option.not_mem_none _), fun _ mem => absurd mem List.not_mem_nil⟩
    exact still (added.comp (Graph.local_retainNode added.closed within.1.1))
  | init c => exact still (Graph.yields_init graph within).locally
  | dropCompiler c => exact still (Graph.local_dropCompiler graph within)
  | edit change => exact still (acts_edit closed within)

end Engine

end DataBinding
