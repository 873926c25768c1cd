import DataBinding.Proofs.ModelBindingListeners
import DataBinding.Proofs.ShownSlots

namespace DataBinding

/-- Whether the environment goes past typing: it sets the input value of an element, or tells of a text
without setting it. -/
def Move.bypasses (n : NodeId) : Move → Bool
  | .edit (.setValue n' _) => n' = n
  | .dispatch n' ⟨kind, some _⟩ => n' = n ∧ kind = "input"
  | _ => false

def Move.types (n : NodeId) : Move → Bool
  | .input n' _ => n' = n
  | _ => false

def textFor (r : RecordId) (d : NodeId × Event × List Listener) : Option String :=
  if d.2.2.any fun listener => listener.record? = some r then d.2.1.value else none

namespace Engine

/-- The text typed last that the listener with a record has yet to hear. -/
def typing? (e : Engine) (r : RecordId) : Option String := e.deliveries.findSome? (textFor r)

def typingAbove? (e : Engine) (k : Nat) (r : RecordId) : Option String :=
  (e.deliveries.take (e.deliveries.length - k)).findSome? (textFor r)

def hearing? (e : Engine) (m : Move) (r : RecordId) : Option String :=
  (e.heard? m).bind fun (_, event, listener) => if listener.record? = some r then event.value else none

variable {e : Engine} {m : Move} {s : SubscriberId} {w w' : Watcher} {n n' : NodeId} {r : RecordId}
  {text : String} {k : Nat}

@[simp] theorem typingAbove?_zero (e : Engine) (r : RecordId) : e.typingAbove? 0 r = e.typing? r := by
  rw [typingAbove?, Nat.sub_zero, List.take_length, typing?]

theorem typing?_of_above (h : e.typingAbove? k r = some text) : e.typing? r = some text := by
  rw [typing?, ← List.take_append_drop (e.deliveries.length - k) e.deliveries, List.findSome?_append]
  rw [typingAbove?] at h
  rw [h, Option.some_or]

theorem typingAbove?_of_ended (ended : e.deliveries.length ≤ k) : e.typingAbove? k r = none := by
  rw [typingAbove?, Nat.sub_eq_zero_of_le ended, List.take_zero, List.findSome?_nil]

theorem Wired.owner (wired : e.Wired) (hw : e.graph.watcher? s = some w)
    (target : w.reaction = .showValue n r) {kind : String} {listener : Listener}
    (mem : (kind, listener) ∈ (e.graph.forest.node n').listeners) (knows : listener.record? = some r) :
    kind = "input" ∧ n' = n ∧ listener = .input w.model w.path r := by
  cases listener with
  | input m path r' =>
    cases knows
    obtain ⟨hkind, t, w', hw', model, path, target'⟩ := wired.heard mem
    have same := wired.apart hw hw' target target'
    subst same
    cases hw.symm.trans hw'
    cases target.symm.trans target'
    exact ⟨hkind, rfl, by rw [model, path]⟩
  | _ => cases knows

theorem textFor_cons {listener : Listener} {event : Event} {pending : List Listener}
    (deaf : (if listener.record? = some r then event.value else none) = none) :
    textFor r (n, event, listener :: pending) = textFor r (n, event, pending) := by
  by_cases knows : listener.record? = some r
  · rw [if_pos knows] at deaf
    simp [textFor, deaf]
  · simp [textFor, knows]

theorem textFor_started (wired : e.Wired) (hw : e.graph.watcher? s = some w)
    (target : w.reaction = .showValue n r) (bypass : m.bypasses n = false) (quiet : m.types n = false)
    {event : Event}
    (asked : m = .dispatch n' event ∨ ∃ text, m = .input n' text ∧ event = ⟨"input", some text⟩) :
    textFor r (n', event, e.graph.forest.listeners n' event.kind) = none := by
  rw [textFor]
  split
  · next any =>
    simp only [List.any_eq_true, decide_eq_true_eq] at any
    obtain ⟨listener, mem, knows⟩ := any
    obtain ⟨kind, rfl, -⟩ := wired.owner hw target (mem_listeners.1 mem) knows
    rcases asked with rfl | ⟨text, rfl, rfl⟩
    · obtain ⟨kind', value⟩ := event
      cases value with
      | none => rfl
      | some text =>
        change kind' = "input" at kind
        simp [Move.bypasses, kind] at bypass
    · simp [Move.types] at quiet
  · rfl

theorem typingAbove?_perform (wired : e.Wired) (allowed : e.Allows m) (hw : e.graph.watcher? s = some w)
    (target : w.reaction = .showValue n r) (bypass : m.bypasses n = false) (quiet : m.types n = false)
    (deaf : e.hearing? m r = none) (outer : k ≤ e.deliveries.length)
    (outer' : k ≤ (e.perform m).deliveries.length) : (e.perform m).typingAbove? k r = e.typingAbove? k r := by
  have delivers := delivers_perform allowed
  rw [typingAbove?, typingAbove?]
  generalize (e.perform m).deliveries = ds at delivers outer'
  cases delivers with
  | same _ => rfl
  | start _ asked =>
    rw [List.length_cons, Nat.succ_sub outer, List.take_succ_cons, List.findSome?_cons,
      textFor_started wired hw target bypass quiet asked]
  | @hear _ _ _ _ rest heard before =>
    rw [hearing?, heard, Option.bind_some] at deaf
    rw [before, List.length_cons, List.length_cons]
    cases rest.length + 1 - k with
    | zero => rfl
    | succ i =>
      rw [List.take_succ_cons, List.take_succ_cons, List.findSome?_cons, List.findSome?_cons, textFor_cons deaf]
  | finish _ before =>
    rw [before, List.length_cons, Nat.succ_sub outer', List.take_succ_cons, List.findSome?_cons]
    rfl

theorem typing?_perform (wired : e.Wired) (allowed : e.Allows m) (hw : e.graph.watcher? s = some w)
    (target : w.reaction = .showValue n r) (bypass : m.bypasses n = false) (quiet : m.types n = false)
    (deaf : e.hearing? m r = none) : (e.perform m).typing? r = e.typing? r := by
  rw [← typingAbove?_zero, ← typingAbove?_zero]
  exact typingAbove?_perform wired allowed hw target bypass quiet deaf (Nat.zero_le _) (Nat.zero_le _)

theorem typingAbove?_input (text : String) (wired : e.Wired) (hw : e.graph.watcher? s = some w)
    (target : w.reaction = .showValue n r) (takes : e.graph.forest.takes (.value n))
    (outer : k ≤ e.deliveries.length) :
    (e.perform (.input n text)).typingAbove? k r = some text ∧
      (e.perform (.input n text)).graph.forest.shows (.value n) = some text := by
  obtain ⟨f, hf, shows, -⟩ := Forest.fill_of_takes takes text
  have hf : e.graph.forest.setValue n text = .ok f := hf
  have mem : .input w.model w.path r ∈ f.listeners n "input" := by
    rw [mem_listeners, (Forest.spares_setValue hf).listeners]
    exact wired.listens hw target
  simp only [perform, input, hf]
  constructor
  · have any : (f.listeners n "input").any (fun listener => listener.record? = some r) = true := by
      apply List.any_eq_true.2
      exact ⟨_, mem, decide_eq_true rfl⟩
    have head : textFor r (n, ⟨"input", some text⟩, f.listeners n "input") = some text := by
      rw [textFor, any]
      rfl
    have started :
        (dispatch { e with graph := { e.graph with forest := f } } n ⟨"input", some text⟩).deliveries =
          (n, ⟨"input", some text⟩, f.listeners n "input") :: e.deliveries := rfl
    rw [typingAbove?, started, List.length_cons, Nat.succ_sub outer, List.take_succ_cons, List.findSome?_cons,
      head]
  · have kept := (Forest.keeps_retain f n).shows (.value n)
    exact kept.trans shows

theorem typing?_input (text : String) (wired : e.Wired) (hw : e.graph.watcher? s = some w)
    (target : w.reaction = .showValue n r) (takes : e.graph.forest.takes (.value n)) :
    (e.perform (.input n text)).typing? r = some text ∧
      (e.perform (.input n text)).graph.forest.shows (.value n) = some text := by
  rw [← typingAbove?_zero]
  exact typingAbove?_input text wired hw target takes (Nat.zero_le _)

theorem current_perform (wf : e.WellFormed) (allowed : e.Allows m) (hw : e.graph.watcher? s = some w)
    (whole : e.graph.hasPath (e.graph.origin w) w.path = true)
    (unwritten : ∀ p ∈ e.graph.reads (e.graph.origin w) w.path, e.written? m ≠ some p) :
    (e.perform m).graph.current w = e.graph.current w := by
  have changes := changes_perform wf allowed
  rw [Graph.current, Changes.origin changes (wf.watchers hw).model]
  apply Graph.valueAt_stable
  · intro p hp
    obtain ⟨v, hv⟩ := Option.isSome_iff_exists.1 (Graph.property?_of_mem_readsAlong hp)
    rw [hv]
    exact changes.property hv (unwritten p hp)
  · intro p hp
    rw [Graph.missing?_of_hasPath whole] at hp
    cases hp

theorem perform_of_heard {event : Event} {listener : Listener} (allowed : e.Allows m)
    (heard : e.heard? m = some (n, event, listener)) :
    ∃ pending first frames, e.frames = .delivery n event (listener :: pending) first :: frames ∧
      e.perform m = hear ⟨e.graph, .delivery n event pending first :: frames, .next⟩ event listener := by
  cases m with
  | step =>
    have steps := steps_of_allows allowed
    generalize e.perform .step = e' at steps
    cases steps with
    | @hear g n' event' listener' pending first frames =>
      cases heard
      exact ⟨pending, first, frames, rfl, rfl⟩
    | _ => cases heard
  | _ => cases heard

theorem current_startWrite {purpose : Purpose} {t : StoreId} {v : Value} (leaf : ∀ u, v ≠ .object u)
    (walk : e.graph.walk? (e.graph.origin w) w.path.parents = some t)
    (whole : (e.startWrite purpose t w.path.last v).graph.hasPath (e.graph.origin w) w.path = true) :
    (e.startWrite purpose t w.path.last v).graph.current w = v := by
  have property (a : StoreId) (k : String) : (e.startWrite purpose t w.path.last v).graph.property? a k =
      (e.graph.install t w.path.last v).property? a k := Graph.property?_setReaders _ _ _ _ _
  obtain ⟨u, v', walk', found'⟩ := Graph.exists_of_hasPath whole
  have same : u = t := by
    rw [Graph.walk?_congr property] at walk'
    have walk' := Graph.walk?_of_install leaf walk'
    rw [walk] at walk'
    exact (Option.some.inj walk').symm
  subst same
  have value : v' = v := by
    rw [property, Graph.property?_install] at found'
    split at found'
    · exact (Option.some.inj found').symm
    · next absent => exact absurd ⟨rfl, Graph.exists_of_property? found', rfl⟩ absent
  have read := Graph.readAlong_of_walk? walk' found'
  rw [value] at read
  exact read

theorem written?_of_heard {event : Event} {listener : Listener}
    (heard : e.heard? m = some (n, event, listener)) : e.written? m = e.typed? event listener := by
  obtain ⟨g, frames, turn⟩ := e
  cases m with
  | step =>
    simp only [heard?] at heard
    simp only [written?]
    split at heard
    · cases heard
      rfl
    · cases heard
  | _ => cases heard

/-- The listener of a model binding that hears a text does nothing if this is the same as what is recorded;
otherwise the text is recorded. It is then written to the path, if all on the way there are objects. -/
theorem perform_of_hearing (wf : e.WellFormed) (wired : e.Wired) (allowed : e.Allows m)
    (hw : e.graph.watcher? s = some w) (target : w.reaction = .showValue n r)
    (heard : e.hearing? m r = some text) :
    e.typing? r = some text ∧
      ((w.policy.same (.string text) (e.graph.record r) = true ∧ e.written? m = none ∧
          (e.perform m).graph = e.graph) ∨
        (w.policy.same (.string text) (e.graph.record r) = false ∧ (e.perform m).graph.record r = .string text ∧
          (e.perform m).graph.forest = e.graph.forest ∧
          ((e.graph.walk? (e.graph.origin w) w.path.parents = none ∧ e.written? m = none ∧
              (e.perform m).turn = .result (.error (.pathNotFound w.path)) ∧
              (e.perform m).frames.length = e.frames.length) ∨
            ((e.written? m).isSome ∧
              ((e.perform m).graph.hasPath (e.graph.origin w) w.path = true →
                (e.perform m).graph.current w = .string text))))) := by
  obtain ⟨⟨n', event, listener⟩, hheard, htext⟩ := Option.bind_eq_some_iff.1 heard
  dsimp only at htext
  split at htext
  · next knows =>
    obtain ⟨pending, first, frames, stacked, performed⟩ := perform_of_heard allowed hheard
    have before : e.deliveries =
        (n', event, listener :: pending) :: deliveries ⟨e.graph, frames, .next⟩ := by rw [deliveries, stacked]; rfl
    have mem := wired.pending (before ▸ List.mem_cons_self) listener List.mem_cons_self
    obtain ⟨-, -, rfl⟩ := wired.owner hw target mem knows
    refine ⟨?_, ?_⟩
    · rw [typing?, before, List.findSome?_cons]
      have head : textFor r (n', event, .input w.model w.path r :: pending) = some text := by
        simp [textFor, Listener.record?, htext]
      rw [head]
    · let e₁ : Engine := ⟨e.graph, .delivery n' event pending first :: frames, .next⟩
      change e.perform m = e₁.hear event (.input w.model w.path r) at performed
      rw [written?_of_heard hheard, (wf.watchers hw).policy]
      have recorded : (e.graph.setRecord r (.string text)).record r = .string text := by
        simp [wired.recorded hw target]
      cases hsame : (e.graph.model w.model).options.changeDetection.same (.string text) (e.graph.record r) with
      | true =>
        left
        rw [performed, hear_of_same (e := e₁) htext hsame]
        refine ⟨rfl, ?_, rfl⟩
        simp only [typed?, htext, hsame, Option.bind_some, if_true]
      | false =>
        right
        cases walk : e.graph.walk? (e.graph.origin w) w.path.parents with
        | none =>
          rw [performed, hear_of_lost (e := e₁) htext hsame walk]
          refine ⟨rfl, recorded, rfl, .inl ⟨rfl, ?_, rfl, by rw [stacked]; rfl⟩⟩
          simp only [typed?, htext, hsame, Option.bind_some]
          exact Option.map_eq_none_iff.2 walk
        | some t =>
          rw [performed, hear_of_differs (e := e₁) htext hsame walk]
          refine ⟨rfl, recorded, rfl, .inr ⟨?_, fun whole => ?_⟩⟩
          · simp only [typed?, htext, hsame, Option.bind_some]
            exact Option.isSome_map.trans (walk ▸ rfl)
          · exact current_startWrite (fun _ => Value.noConfusion) ((walk?_setRecord _ _ _ _ _).trans walk) whole
  · cases htext

theorem hearing_cases (wf : e.WellFormed) (wired : e.Wired) (allowed : e.Allows m)
    (hw : e.graph.watcher? s = some w) (target : w.reaction = .showValue n r)
    (heard : e.hearing? m r = some text) (whole : e.graph.hasPath (e.graph.origin w) w.path = true)
    (whole' : (e.perform m).graph.hasPath ((e.perform m).graph.origin w) w.path = true) :
    e.typing? r = some text ∧
      ((w.policy.same (.string text) (e.graph.record r) = true ∧ e.written? m = none ∧
          (e.perform m).graph = e.graph) ∨
        (w.policy.same (.string text) (e.graph.record r) = false ∧ (e.written? m).isSome ∧
          (e.perform m).graph.record r = .string text ∧ (e.perform m).graph.current w = .string text ∧
          (e.perform m).graph.forest = e.graph.forest)) := by
  obtain ⟨typing, same | ⟨differs, record, forest, ⟨absent, -⟩ | ⟨written, arrives⟩⟩⟩ :=
    perform_of_hearing wf wired allowed hw target heard
  · exact ⟨typing, .inl same⟩
  · obtain ⟨t, -, walk, -⟩ := Graph.exists_of_hasPath whole
    cases absent.symm.trans walk
  · rw [Changes.origin (changes_perform wf allowed) (wf.watchers hw).model] at whole'
    exact ⟨typing, .inr ⟨differs, written, record, arrives whole', forest⟩⟩

theorem heard_cases (wf : e.WellFormed) (wired : e.Wired) (allowed : e.Allows m)
    (hw : e.graph.watcher? s = some w) (target : w.reaction = .showValue n r) (strict : w.policy = .strict)
    (heard : e.hearing? m r = some text) (whole : e.graph.hasPath (e.graph.origin w) w.path = true)
    (whole' : (e.perform m).graph.hasPath ((e.perform m).graph.origin w) w.path = true) :
    e.typing? r = some text ∧
      ((e.graph.record r = .string text ∧ (e.perform m).graph = e.graph) ∨
        (e.graph.record r ≠ .string text ∧ (e.perform m).graph.record r = .string text ∧
          (e.perform m).graph.current w = .string text ∧ (e.perform m).graph.forest = e.graph.forest)) := by
  obtain ⟨typing, cases⟩ := hearing_cases wf wired allowed hw target heard whole whole'
  rw [strict] at cases
  refine ⟨typing, ?_⟩
  rcases cases with ⟨same, -, graph⟩ | ⟨differs, -, taken⟩
  · exact .inl ⟨Value.strictEq_string.1 same, graph⟩
  · refine .inr ⟨?_, taken⟩
    intro same
    have same := Value.strictEq_string.2 same
    change (Value.string text).strictEq (e.graph.record r) = false at differs
    rw [same] at differs
    cases differs

end Engine

end DataBinding
