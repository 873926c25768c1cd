import DataBinding.Proofs.DocumentFrame
import DataBinding.Proofs.NotificationPasses

namespace DataBinding

def Engine.announced? (e : Engine) : Move → Option (NodeId × Event)
  | .dispatch n event => some (n, event)
  | .input n text => if e.graph.forest.takes (.value n) then some (n, ⟨"input", some text⟩) else none
  | _ => none

def hearings (es : List Engine) : List (NodeId × Event × Listener) := es.filterMap fun e => e.heard? .step

def firstFailure (es : List Engine) : Option Error := ((results es).flatMap failuresOf).head?

/-- The delivery to those who are due is under way, with other work above it while a listener is running. -/
def Delivering (n : NodeId) (event : Event) (due : List Listener) (below : List Frame) (h : History) (e : Engine) :
    Prop :=
  ∃ above left,
    e.frames = above ++ .delivery n event left (firstFailure (h.stepsAt (below.length + 1))) :: below ∧
    hearings (h.stepsAt (below.length + 1)) ++ left.map (n, event, ·) = due.map (n, event, ·)

def HasDelivered (n : NodeId) (event : Event) (due : List Listener) (below : List Frame) (h : History) (e : Engine) :
    Prop :=
  e.frames = below ∧ hearings (h.stepsAt (below.length + 1)) = due.map (n, event, ·) ∧
    e.turn = .environment (.answer (.done (deliveryResult (firstFailure (h.stepsAt (below.length + 1))))))

variable {n : NodeId} {event : Event} {due left : List Listener} {below : List Frame} {h : History} {e : Engine}
  {m : Move} {es : List Engine} {g : Graph}

@[simp] theorem hearings_concat (es : List Engine) (e : Engine) :
    hearings (es ++ [e]) = hearings es ++ (e.heard? .step).toList := by
  rw [hearings, List.filterMap_append, hearings]
  cases he : e.heard? .step <;> simp [he]

@[simp] theorem firstFailure_concat (es : List Engine) (e : Engine) :
    firstFailure (es ++ [e]) = (firstFailure es).or (e.accepted?.toList.flatMap failuresOf).head? := by
  rw [firstFailure, results_concat, List.flatMap_append, List.head?_append, firstFailure]

theorem stack_hear (e : Engine) (event : Event) (listener : Listener) :
    ∃ above, (e.hear event listener).frames = above ++ e.frames ∧
      (above = [] → (e.hear event listener).turn ≠ .next) := by
  cases listener with
  | call callback => exact ⟨[], rfl, fun _ same => Turn.noConfusion same⟩
  | method m callback => exact ⟨[], rfl, fun _ same => Turn.noConfusion same⟩
  | input m path r =>
    rw [Engine.hear]
    split
    · exact ⟨[], rfl, fun _ same => Turn.noConfusion same⟩
    · dsimp only
      split
      · exact ⟨[], rfl, fun _ same => Turn.noConfusion same⟩
      · split
        · exact ⟨[_], rfl, fun same => absurd same (List.cons_ne_nil _ _)⟩
        · exact ⟨[], rfl, fun _ same => Turn.noConfusion same⟩

theorem delivery_of_announced? (announced : e.announced? m = some (n, event)) :
    ∃ g, e.perform m = ⟨g, .delivery n event (e.graph.forest.listeners n event.kind) none :: e.frames, .next⟩ := by
  cases m with
  | dispatch n' event' =>
    cases announced
    exact ⟨_, rfl⟩
  | input n' text =>
    simp only [Engine.announced?] at announced
    split at announced
    · next takes =>
      cases announced
      obtain ⟨f, filled, -⟩ := Forest.fill_of_takes takes text
      have filled : e.graph.forest.setValue n text = .ok f := filled
      have same : f.listeners n "input" = e.graph.forest.listeners n "input" := by
        rw [Forest.listeners, (Forest.spares_setValue filled).listeners, Forest.listeners]
      refine ⟨{ e.graph with forest := f.retain n }, ?_⟩
      rw [Engine.perform, Engine.input, filled, ← same]
      rfl
    · cases announced
  | _ => cases announced

theorem delivering_of_above {above : List Frame} (others : m = .step → e.frames.length ≠ below.length + 1)
    (frames : (e.perform m).frames =
      above ++ .delivery n event left (firstFailure (h.stepsAt (below.length + 1))) :: below)
    (course : hearings (h.stepsAt (below.length + 1)) ++ left.map (n, event, ·) = due.map (n, event, ·)) :
    Delivering n event due below ((e, m) :: h) (e.perform m) := by
  rw [Delivering, h.stepsAt_of_ne others]
  exact ⟨above, left, frames, course⟩

theorem delivering_of_step (frames : e.frames =
      .delivery n event left (firstFailure (h.stepsAt (below.length + 1))) :: below)
    (course : hearings (h.stepsAt (below.length + 1)) ++ left.map (n, event, ·) = due.map (n, event, ·))
    (allowed : e.Allows .step) :
    Delivering n event due below ((e, .step) :: h) (e.perform .step) ∨
      HasDelivered n event due below ((e, .step) :: h) (e.perform .step) := by
  have here : History.stepsAt (below.length + 1) ((e, .step) :: h) = h.stepsAt (below.length + 1) ++ [e] :=
    h.stepsAt_step (by rw [frames]; rfl)
  have steps := Engine.steps_of_allows allowed
  rw [Delivering, HasDelivered, here, hearings_concat, firstFailure_concat]
  obtain ⟨g, stack, turn⟩ := e
  dsimp only at frames
  subst frames
  generalize Engine.perform _ .step = e' at steps
  cases steps with
  | delivery =>
    right
    simp only [List.map_nil, List.append_nil] at course
    simp only [Engine.heard?, Engine.accepted?, Option.toList_none, List.append_nil, List.flatMap_nil, List.head?_nil,
      Option.or_none, and_true, true_and]
    exact course
  | @hear _ _ _ listener pending _ _ =>
    left
    obtain ⟨above, stacked, -⟩ := stack_hear ⟨g, .delivery n event pending _ :: below, .next⟩ event listener
    refine ⟨above, pending, ?_, ?_⟩
    · simp only [Engine.accepted?, Option.toList_none, List.flatMap_nil, List.head?_nil, Option.or_none]
      exact stacked
    · simp only [Engine.heard?, Option.toList_some, List.append_assoc, List.singleton_append]
      exact course
  | @acceptDelivery _ _ _ _ _ _ r =>
    left
    refine ⟨[], left, ?_, ?_⟩
    · simp only [Engine.accepted?, Option.toList_some, List.flatMap_singleton, List.nil_append]
    · simp only [Engine.heard?, Option.toList_none, List.append_nil]
      exact course

theorem Delivering.perform (delivering : Delivering n event due below h e) (allowed : e.Allows m) :
    Delivering n event due below ((e, m) :: h) (e.perform m) ∨
      HasDelivered n event due below ((e, m) :: h) (e.perform m) := by
  obtain ⟨above, left, frames, course⟩ := delivering
  rcases Engine.own_or_above frames allowed with ⟨rfl, rfl⟩ | ⟨others, -, above', frames', -⟩
  · exact delivering_of_step frames course allowed
  · exact .inl (delivering_of_above others frames' course)

theorem Run.delivering_or_delivered {h₁ h₀ : History}
    (run₀ : Run h₀ ⟨g, .delivery n event due none :: below, .next⟩) (run : Run (h₁ ++ h₀) e)
    (within : ∀ x ∈ h₁, below.length < x.1.frames.length) :
    Delivering n event due below h₁ e ∨ HasDelivered n event due below h₁ e := by
  refine run₀.throughout (fun h e => Delivering n event due below h e ∨ HasDelivered n event due below h e) ?_ run
    within ?_
  · exact .inl ⟨[], due, rfl, rfl⟩
  · rintro h e m - - inside allowed (delivering | ⟨frames, -⟩)
    · exact delivering.perform allowed
    · -- no more moves are within the delivery when it is over
      rw [frames] at inside
      exact absurd inside (Nat.lt_irrefl _)

end DataBinding
