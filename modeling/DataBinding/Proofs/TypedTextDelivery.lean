import DataBinding.Proofs.DeliveryOrder
import DataBinding.Proofs.TypedTextCorrection

namespace DataBinding

namespace Engine

variable {e : Engine} {m : Move} {s : SubscriberId} {w : Watcher} {n : NodeId} {r : RecordId} {text : String}

theorem watched_perform (wf : e.WellFormed) (allowed : e.Allows m) (hw : e.graph.watcher? s = some w) :
    ∃ w', (e.perform m).graph.watcher? s = some w' ∧ w' = { w with value := w'.value } := by
  by_cases updated : e.updated? m = some s
  · rcases watcher?_of_updated allowed updated hw with ⟨-, hw'⟩ | ⟨-, hw'⟩
    · exact ⟨_, hw', rfl⟩
    · exact ⟨_, hw', rfl⟩
  · refine ⟨w, ?_, rfl⟩
    rw [watcher?_of_not_updated wf allowed (Graph.exists_of_watcher? hw) updated, hw]

theorem frames_of_hearing (heard : e.hearing? m r = some text) :
    m = .step ∧ ∃ n event listener pending first rest,
      e.frames = .delivery n event (listener :: pending) first :: rest ∧
      textFor r (n, event, listener :: pending) = some text ∧ event.value = some text := by
  obtain ⟨⟨n, event, listener⟩, heard, value⟩ := Option.bind_eq_some_iff.1 heard
  dsimp only at value
  split at value
  · next knows =>
    obtain ⟨g, frames, turn⟩ := e
    cases m with
    | step =>
      simp only [heard?] at heard
      split at heard
      · cases heard
        exact ⟨rfl, _, _, _, _, _, _, rfl, by simp [textFor, knows, value], value⟩
      · cases heard
    | _ => cases heard
  · cases value

theorem takes_perform (wf : e.WellFormed) (allowed : e.Allows m) (takes : e.graph.forest.takes (.value n)) :
    (e.perform m).graph.forest.takes (.value n) := by
  by_cases started : ∃ c, m = .init c
  · obtain ⟨c, rfl⟩ := started
    have extended := (Graph.initializes_init (wf.compilers allowed.2.1)).extended
    obtain ⟨shown, shows⟩ := Option.ne_none_iff_exists'.1 (Forest.shows_of_takes_value takes)
    rcases extended.renders (.value n) with ⟨-, other⟩ | ⟨same, -⟩ | ⟨_, _, -, -, -, filled⟩
    · exact absurd rfl (other n)
    · exact Forest.takes_of_shows (same.trans shows)
    · exact Forest.takes_of_shows filled
  · have leaves := leaves_perform allowed fun c same => started ⟨c, same⟩
    exact (leaves.takes (Forest.exists_of_takes takes)).trans takes

theorem announced?_input (takes : e.graph.forest.takes (.value n)) (text : String) :
    e.announced? (.input n text) = some (n, ⟨"input", some text⟩) := if_pos takes

end Engine

namespace Run

theorem takes {h : History} {e : Engine} {s : SubscriberId} {w : Watcher} {n : NodeId} {r : RecordId} (run : Run h e)
    (hw : e.graph.watcher? s = some w) (target : w.reaction = .showValue n r) : e.graph.forest.takes (.value n) := by
  refine run.of_watcher (P := fun _ e w => w.reaction = .showValue n r → e.graph.forest.takes (.value n)) hw
    ?made ?kept target
  case made =>
    intro h e m w run allowed late new hw target
    have wf := run.wellFormed
    by_cases started : ∃ c, m = .init c
    · obtain ⟨c, rfl⟩ := started
      have extended := (Graph.initializes_init (wf.compilers allowed.2.1)).extended
      have slot : w.reaction.slot? = some (.value n) := by rw [target]; rfl
      rcases extended.renders (.value n) with ⟨-, other⟩ | ⟨-, none⟩ | ⟨_, _, -, -, -, filled⟩
      · exact absurd rfl (other n)
      · exact absurd slot (none s w late hw)
      · exact Forest.takes_of_shows filled
    · obtain ⟨w₀, hw₀, -⟩ := Engine.bound_before wf allowed (fun c same => started ⟨c, same⟩) hw target
      exact absurd (Graph.exists_of_watcher? hw₀) (Nat.not_lt_of_le late)
  case kept =>
    intro h e m w w' run allowed hs old hw hw' same takes target
    rw [same] at target
    exact Engine.takes_perform run.wellFormed allowed (takes target)

variable {h₂ h₁ : History} {e₁ e : Engine} {s : SubscriberId} {w : Watcher} {n : NodeId} {r : RecordId}
  {text : String}

theorem watched_later {m₁ : Move} (run : Run (h₂ ++ (e₁, m₁) :: h₁) e) (hw : e₁.graph.watcher? s = some w) :
    ∃ w', e.graph.watcher? s = some w' ∧ w' = { w with value := w'.value } := by
  obtain ⟨run₁, allowed₁, after⟩ := run.of_move
  apply after.onward run (Engine.watched_perform run₁.wellFormed allowed₁ hw)
  rintro h e m earlier allowed ⟨w₂, hw₂, same₂⟩
  obtain ⟨w', hw', same'⟩ := Engine.watched_perform earlier.wellFormed allowed hw₂
  exact ⟨w', hw', by rw [same', same₂]⟩

/-- A text is typed into the element of a model binding, and until its delivery is over nothing else is. -/
structure Typed (h₂ : History) (e₁ : Engine) (text : String) (h₁ : History) (e : Engine) (s : SubscriberId)
    (w : Watcher) (n : NodeId) (r : RecordId) : Prop where
  run : Run (h₂ ++ (e₁, .input n text) :: h₁) e
  watched : e₁.graph.watcher? s = some w
  target : w.reaction = .showValue n r
  within : ∀ x ∈ h₂, e₁.frames.length < x.1.frames.length
  quiet : ∀ x ∈ h₂, x.2.bypasses n = false ∧ x.2.types n = false

namespace Typed

theorem start (typed : Typed h₂ e₁ text h₁ e s w n r) : Run h₁ e₁ ∧ e₁.Allows (.input n text) :=
  ⟨typed.run.of_move.1, typed.run.of_move.2.1⟩

theorem watcher (typed : Typed h₂ e₁ text h₁ e s w n r) :
    ∃ w', e.graph.watcher? s = some w' ∧ w' = { w with value := w'.value } := typed.run.watched_later typed.watched

theorem earlier {x : Engine × Move} (typed : Typed (x :: h₂) e₁ text h₁ e s w n r) :
    Typed h₂ e₁ text h₁ x.1 s w n r ∧ x.1.Allows x.2 ∧ e = x.1.perform x.2 := by
  obtain ⟨run, watched, target, within, quiet⟩ := typed
  cases run with
  | move run allowed =>
    exact ⟨⟨run, watched, target, fun y mem => within y (List.mem_cons_of_mem _ mem),
      fun y mem => quiet y (List.mem_cons_of_mem _ mem)⟩, allowed, rfl⟩

theorem started (typed : Typed h₂ e₁ text h₁ e s w n r) :
    ∃ g, e₁.perform (.input n text) =
      ⟨g, .delivery n ⟨"input", some text⟩ (e₁.graph.forest.listeners n "input") none :: e₁.frames, .next⟩ :=
  delivery_of_announced? (Engine.announced?_input (typed.start.1.takes typed.watched typed.target) text)

theorem course (typed : Typed h₂ e₁ text h₁ e s w n r) :
    Delivering n ⟨"input", some text⟩ (e₁.graph.forest.listeners n "input") e₁.frames h₂ e ∨
      HasDelivered n ⟨"input", some text⟩ (e₁.graph.forest.listeners n "input") e₁.frames h₂ e := by
  obtain ⟨run₁, allowed⟩ := typed.start
  obtain ⟨g, started⟩ := typed.started
  have run₀ := run₁.move allowed
  rw [started] at run₀
  exact run₀.delivering_or_delivered typed.run typed.within

theorem frames (typed : Typed h₂ e₁ text h₁ e s w n r) (inside : e₁.frames.length < e.frames.length) :
    ∃ above left first, e.frames = above ++ .delivery n ⟨"input", some text⟩ left first :: e₁.frames := by
  rcases typed.course with ⟨above, left, frames, -⟩ | ⟨frames, -⟩
  · exact ⟨above, left, _, frames⟩
  · rw [frames] at inside
    exact absurd inside (Nat.lt_irrefl _)

theorem deliveries (typed : Typed h₂ e₁ text h₁ e s w n r) (inside : e₁.frames.length < e.frames.length) :
    e₁.deliveries.length + 1 ≤ e.deliveries.length := by
  obtain ⟨above, left, first, frames⟩ := typed.frames inside
  rw [Engine.deliveries, Engine.deliveries, frames, List.filterMap_append, List.length_append]
  exact Nat.le_add_left _ _

theorem heard_of_none_above (typed : Typed h₂ e₁ text h₁ e s w n r) (inside : e₁.frames.length < e.frames.length)
    (none : e.typingAbove? (e₁.deliveries.length + 1) r = none) {m : Move} {text' : String}
    (heard : e.hearing? m r = some text') :
    text' = text ∧ e.frames.length = e₁.frames.length + 1 ∧ e.deliveries.length = e₁.deliveries.length + 1 := by
  obtain ⟨-, n', event, listener, pending, first, rest, frames, due, value⟩ := Engine.frames_of_hearing heard
  obtain ⟨above, left, first', frames'⟩ := typed.frames inside
  rw [frames'] at frames
  cases above with
  | nil =>
    cases frames
    cases value
    rw [Engine.deliveries, frames']
    exact ⟨rfl, rfl, rfl⟩
  | cons f above =>
    cases frames
    have deliveries : e.deliveries = (n', event, listener :: pending) ::
        (above.filterMap Frame.delivery? ++ (n, ⟨"input", some text⟩, left) :: e₁.deliveries) := by
      rw [Engine.deliveries, frames', List.filterMap_append]
      rfl
    -- the first of the deliveries above has a text
    have length : e.deliveries.length - (e₁.deliveries.length + 1) = (above.filterMap Frame.delivery?).length + 1 := by
      rw [deliveries, List.length_cons, List.length_append, List.length_cons]
      omega
    rw [Engine.typingAbove?, length, deliveries, List.take_succ_cons, List.findSome?_cons, due] at none
    cases none

theorem none_above (typed : Typed h₂ e₁ text h₁ e s w n r) (inside : e₁.frames.length < e.frames.length) :
    e.typingAbove? (e₁.deliveries.length + 1) r = none := by
  induction h₂ generalizing e with
  | nil =>
    obtain ⟨run, allowed⟩ := typed.start
    obtain ⟨g, started⟩ := typed.started
    have same : e = e₁.perform (.input n text) := typed.run.unique (run.move allowed)
    apply Engine.typingAbove?_of_ended
    rw [same, started]
    exact Nat.le_refl _
  | cons x h₂ ih =>
    obtain ⟨before, allowed, rfl⟩ := typed.earlier
    obtain ⟨e, m⟩ := x
    dsimp only at before allowed
    have inside₁ : e₁.frames.length < e.frames.length := typed.within _ List.mem_cons_self
    have none := ih before inside₁
    cases heard : e.hearing? m r with
    | none =>
      obtain ⟨w₁, hw₁, same₁⟩ := before.watcher
      have target₁ : w₁.reaction = .showValue n r := by rw [same₁]; exact typed.target
      obtain ⟨bypass, quiet⟩ := typed.quiet _ List.mem_cons_self
      rw [Engine.typingAbove?_perform before.run.wired allowed hw₁ target₁ bypass quiet heard
        (before.deliveries inside₁) (typed.deliveries inside)]
      exact none
    | some text' =>
      -- the text's own delivery has come to the listener, and there is none above it
      obtain ⟨-, -, length⟩ := before.heard_of_none_above inside₁ none heard
      obtain ⟨⟨n', event, listener⟩, heard, -⟩ := Option.bind_eq_some_iff.1 heard
      have delivers := Engine.delivers_perform allowed
      apply Engine.typingAbove?_of_ended
      dsimp only
      generalize (e.perform m).deliveries = ds at delivers
      cases delivers with
      | same quiet => cases heard.symm.trans quiet
      | start quiet _ => cases heard.symm.trans quiet
      | hear _ same =>
        rw [same] at length
        exact Nat.le_of_eq length
      | finish quiet _ => cases heard.symm.trans quiet

theorem hears {m : Move} (typed : Typed h₂ e₁ text h₁ e s w n r) (inside : e₁.frames.length < e.frames.length)
    {text' : String} (heard : e.hearing? m r = some text') :
    text' = text ∧ e.frames.length = e₁.frames.length + 1 := by
  obtain ⟨same, length, -⟩ := typed.heard_of_none_above inside (typed.none_above inside) heard
  exact ⟨same, length⟩

theorem heard (typed : Typed h₂ e₁ text h₁ e s w n r) (returned : e.frames.length ≤ e₁.frames.length) :
    (∃ x ∈ h₂, x.1.hearing? x.2 r = some text) ∧
      e.turn = .environment (.answer (.done (deliveryResult (firstFailure (h₂.stepsAt (e₁.frames.length + 1)))))) := by
  rcases typed.course with ⟨above, left, frames, -⟩ | ⟨-, course, turn⟩
  · rw [frames, List.length_append, List.length_cons] at returned
    omega
  · refine ⟨?_, turn⟩
    have listens := typed.start.1.wired.listens typed.watched typed.target
    have due : (n, (⟨"input", some text⟩ : Event), Listener.input w.model w.path r) ∈
        hearings (h₂.stepsAt (e₁.frames.length + 1)) := by
      rw [course]
      exact List.mem_map_of_mem (Engine.mem_listeners.2 listens)
    obtain ⟨e', mem, heard⟩ := List.mem_filterMap.1 due
    refine ⟨(e', .step), (History.mem_of_mem_stepsAt mem).1, ?_⟩
    rw [Engine.hearing?, heard]
    exact if_pos rfl

end Typed

end Run

end DataBinding
