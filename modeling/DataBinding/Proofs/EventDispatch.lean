import DataBinding.Proofs.DroppedCompilers
import DataBinding.Proofs.TypedTextDelivery

namespace DataBinding

/-- How many results the work at a depth waits for: none while it looks for what comes next, none when it is over, and
one otherwise. -/
def Engine.awaited (depth : Nat) (e : Engine) : Nat :=
  match e.turn with
  | .next => if e.frames.length ≤ depth then 0 else 1
  | _ => if e.frames.length < depth then 0 else 1

def Matched (depth : Nat) (h : History) (e : Engine) : Prop :=
  (results (h.stepsAt depth)).length + e.awaited depth = (hearings (h.stepsAt depth)).length

/-- What comes of an event that a move announces. The first step after the move is that of its delivery. Those who
listen to the event when the move is made are run in order, each once and none before the one ahead of it has given its
result, and nobody else is. Whoever is added meanwhile stays, and is due in the deliveries that begin from then on. When
the delivery is over all have been run, and it ends with the first failure among their results. Whatever has been done
so far, it is over after finitely many steps if callbacks answer. -/
structure Dispatched (h₁ : History) (e₀ : Engine) (m : Move) (h₀ : History) (e : Engine) (n : NodeId) (event : Event) :
    Prop where
  begins : h₁ ≠ [] → (h₁.stepsAt (e₀.frames.length + 1)).head? = some (e₀.perform m)
  runs : ∀ x ∈ h₁.stepsAt (e₀.frames.length + 1), ∀ n' event' listener,
    x.heard? .step = some (n', event', listener) →
      ∃ frames, x.perform .step = Engine.hear ⟨x.graph, frames, .next⟩ event' listener
  order : hearings (h₁.stepsAt (e₀.frames.length + 1)) <+:
    (e₀.graph.forest.listeners n event.kind).map (n, event, ·)
  turns : ∀ es, es <+: h₁.stepsAt (e₀.frames.length + 1) →
    (results es).length ≤ (hearings es).length ∧ (hearings es).length ≤ (results es).length + 1
  finishes : e.frames.length ≤ e₀.frames.length →
    e.frames = e₀.frames ∧
      hearings (h₁.stepsAt (e₀.frames.length + 1)) = (e₀.graph.forest.listeners n event.kind).map (n, event, ·) ∧
      (results (h₁.stepsAt (e₀.frames.length + 1))).length = (e₀.graph.forest.listeners n event.kind).length ∧
      ∃ r, e.turn = .environment (.answer (.done r)) ∧
        (r = .ok () ↔ ∀ r' ∈ results (h₁.stepsAt (e₀.frames.length + 1)), r' = .ok ()) ∧
        ∀ err, r = .error err ↔ ∃ before after,
          results (h₁.stepsAt (e₀.frames.length + 1)) = before ++ .error err :: after ∧ ∀ r' ∈ before, r' = .ok ()
  keeps : ∀ x ∈ h₁, ∀ n' kind, x.1.graph.forest.listeners n' kind <+: e.graph.forest.listeners n' kind ∧
    ∀ callback, x.2 = .edit (.listen n' kind callback) → n'.index < x.1.graph.forest.size →
      x.1.graph.forest.listeners n' kind ++ [.call callback] <+: e.graph.forest.listeners n' kind
  ends : ∀ answer, ∃ h₂ e', Run (h₂ ++ (h₁ ++ (e₀, m) :: h₀)) e' ∧ Answers answer e₀.frames h₂ ∧ e'.frames = e₀.frames

variable {n : NodeId} {event : Event} {due left : List Listener} {below : List Frame} {h h₀ h₁ : History}
  {e e₀ : Engine} {m : Move} {rs : List (Except Error Unit)} {depth : Nat} {frame : Frame}

theorem Forest.listeners_of_listen {f : Forest} {kind : String} (exist : n.index < f.size) (listener : Listener) :
    (f.listen n kind listener).listeners n kind = f.listeners n kind ++ [listener] := by
  rw [listeners, listeners_listen, if_pos ⟨rfl, exist⟩, List.filterMap_append, listeners]
  simp

namespace Engine

theorem input_of_element {tag value : String} {attributes : Fields String}
    (element : e.graph.forest.content n = .element tag attributes value) (text : String) :
    e.announced? (.input n text) = some (n, ⟨"input", some text⟩) ∧
      (e.perform (.input n text)).graph.forest.content n = .element tag attributes text := by
  have takes : e.graph.forest.takes (.value n) := by rw [Forest.takes, Slot.node, element]; rfl
  refine ⟨announced?_input takes text, ?_⟩
  simp only [perform, input, Forest.setValue, element, dispatch]
  rw [(Forest.keeps_retain _ n).content, Forest.content_setContent, if_pos ⟨rfl, Forest.exists_of_takes takes⟩]

theorem input_of_other (other : ∀ tag attributes value, e.graph.forest.content n ≠ .element tag attributes value)
    (text : String) : e.announced? (.input n text) = none ∧
      e.perform (.input n text) = e.answer (.error (.document (.notElement .setValue))) := by
  cases content : e.graph.forest.content n with
  | element tag attributes value => exact absurd content (other tag attributes value)
  | _ => simp [announced?, Forest.takes, Slot.node, Content.takes, perform, input, Forest.setValue, content]

end Engine

theorem deliveryResult_eq_ok : deliveryResult (rs.flatMap failuresOf).head? = .ok () ↔ ∀ r ∈ rs, r = .ok () := by
  induction rs with
  | nil => simp [deliveryResult]
  | cons r rs ih =>
    rw [List.flatMap_cons, List.forall_mem_cons]
    cases r with
    | ok => simpa [failuresOf] using ih
    | error err => simp [failuresOf, deliveryResult]

theorem deliveryResult_eq_error {err : Error} : deliveryResult (rs.flatMap failuresOf).head? = .error err ↔
    ∃ before after, rs = before ++ .error err :: after ∧ ∀ r ∈ before, r = .ok () := by
  induction rs with
  | nil => simp [deliveryResult]
  | cons r rs ih =>
    rw [List.flatMap_cons]
    cases r with
    | ok =>
      rw [failuresOf, List.nil_append, ih]
      constructor
      · rintro ⟨before, after, rfl, fine⟩
        exact ⟨.ok () :: before, after, rfl, List.forall_mem_cons.2 ⟨rfl, fine⟩⟩
      · rintro ⟨before, after, same, fine⟩
        cases before with
        | nil => cases same
        | cons r before =>
          cases same
          exact ⟨before, after, rfl, (List.forall_mem_cons.1 fine).2⟩
    | error err' =>
      rw [failuresOf, List.singleton_append, List.head?_cons, deliveryResult]
      constructor
      · intro same
        cases same
        exact ⟨[], rs, rfl, List.forall_mem_nil _⟩
      · rintro ⟨before, after, same, fine⟩
        cases before with
        | nil =>
          cases same
          rfl
        | cons r before =>
          cases same
          cases fine _ List.mem_cons_self

theorem awaited_le_one (depth : Nat) (e : Engine) : e.awaited depth ≤ 1 := by
  unfold Engine.awaited
  split <;> split <;> omega

theorem awaited_of_busy {above : List Frame} (frames : e.frames = above ++ frame :: below)
    (busy : above = [] → e.turn ≠ .next) : e.awaited (below.length + 1) = 1 := by
  have length : e.frames.length = above.length + (below.length + 1) := by
    rw [frames, List.length_append, List.length_cons]
  unfold Engine.awaited
  split
  · next next =>
    have filled := List.length_pos_iff.2 fun none => busy none next
    rw [if_neg (by omega)]
  · rw [if_neg (by omega)]

theorem awaited_of_over (ended : e.frames.length < depth) : e.awaited depth = 0 := by
  unfold Engine.awaited
  split
  · rw [if_pos (Nat.le_of_lt ended)]
  · rw [if_pos ended]

theorem matched_of_others (matched : Matched depth h e) (others : m = .step → e.frames.length ≠ depth)
    (before : e.awaited depth = 1) (after : (e.perform m).awaited depth = 1) :
    Matched depth ((e, m) :: h) (e.perform m) := by
  rw [Matched, h.stepsAt_of_ne others, after, ← before]
  exact matched

theorem matched_of_step {first : Option Error} (matched : Matched (below.length + 1) h e)
    (frames : e.frames = .delivery n event left first :: below) (allowed : e.Allows .step) :
    Matched (below.length + 1) ((e, .step) :: h) (e.perform .step) := by
  have here : e.frames.length = below.length + 1 := by rw [frames]; rfl
  have steps := Engine.steps_of_allows allowed
  rw [Matched] at matched
  rw [Matched, h.stepsAt_step here, results_concat, hearings_concat, List.length_append, List.length_append]
  obtain ⟨g, stack, turn⟩ := e
  dsimp only at frames
  subst frames
  generalize Engine.perform _ .step = e' at steps
  cases steps with
  | delivery => simpa [Engine.awaited, Engine.accepted?, Engine.heard?] using matched
  | @hear _ _ _ listener pending _ _ =>
    obtain ⟨above, stacked, busy⟩ := stack_hear ⟨g, .delivery n event pending first :: below, .next⟩ event listener
    rw [awaited_of_busy stacked busy]
    simpa [Engine.awaited, Engine.accepted?, Engine.heard?] using matched
  | acceptDelivery => simpa [Engine.awaited, Engine.accepted?, Engine.heard?] using matched

theorem Delivering.matched_perform (delivering : Delivering n event due below h e)
    (matched : Matched (below.length + 1) h e) (allowed : e.Allows m) :
    Matched (below.length + 1) ((e, m) :: h) (e.perform m) := by
  obtain ⟨above, left, frames, -⟩ := delivering
  rcases Engine.own_or_above frames allowed with ⟨rfl, rfl⟩ | ⟨others, busy, above', frames', busy'⟩
  · exact matched_of_step matched frames allowed
  · exact matched_of_others matched others (awaited_of_busy frames busy) (awaited_of_busy frames' busy')

theorem History.exists_of_prefix {es : List Engine} (begun : es <+: h.stepsAt depth) :
    ∃ h₂ h₁, h = h₂ ++ h₁ ∧ es = h₁.stepsAt depth := by
  induction h with
  | nil => exact ⟨[], [], rfl, List.prefix_nil.1 begun⟩
  | cons x h ih =>
    by_cases whole : es = History.stepsAt depth (x :: h)
    · exact ⟨[], x :: h, rfl, whole⟩
    · -- all but the latest step are left
      have shorter : es <+: History.stepsAt depth h := by
        rw [stepsAt] at begun whole
        split at begun
        · next own =>
          rw [if_pos own] at whole
          exact (List.prefix_concat_iff.1 begun).resolve_left whole
        · rwa [List.append_nil] at begun
      obtain ⟨h₂, h₁, rfl, same⟩ := ih shorter
      exact ⟨x :: h₂, h₁, rfl, same⟩

namespace Run

theorem matched {g : Graph} (run₀ : Run h₀ ⟨g, .delivery n event due none :: below, .next⟩) (run : Run (h₁ ++ h₀) e)
    (within : ∀ x ∈ h₁, below.length < x.1.frames.length) : Matched (below.length + 1) h₁ e := by
  refine run₀.throughout (Matched (below.length + 1)) ?_ run within ?_
  · simp [Matched, Engine.awaited, History.stepsAt, results, hearings]
  · intro h e m earlier before inside allowed matched
    rcases run₀.delivering_or_delivered earlier before with delivering | ⟨frames, -⟩
    · exact delivering.matched_perform matched allowed
    · rw [frames] at inside
      exact absurd inside (Nat.lt_irrefl _)

theorem head_stepsAt (run₀ : Run h₀ e₀) (turn : e₀.turn = .next) (here : e₀.frames.length = depth)
    (run : Run (h₁ ++ h₀) e) (later : h₁ ≠ []) : (h₁.stepsAt depth).head? = some e₀ := by
  induction h₁ generalizing e with
  | nil => exact absurd rfl later
  | cons x h₁ ih =>
    cases run with
    | @move _ e' m earlier allowed =>
      cases h₁ with
      | nil =>
        obtain rfl := run₀.unique earlier
        obtain rfl : m = .step := allowed.1.2 (by rw [Engine.step?, turn]; rfl)
        rw [History.stepsAt_step _ here]
        rfl
      | cons y h₁ =>
        rw [History.stepsAt, List.head?_append, ih earlier (List.cons_ne_nil _ _), Option.some_or]

theorem hear_of_stepsAt {x : Engine} {listener : Listener} (run : Run (h₁ ++ h₀) e) (mem : x ∈ h₁.stepsAt depth)
    (heard : x.heard? .step = some (n, event, listener)) :
    ∃ frames, x.perform .step = Engine.hear ⟨x.graph, frames, .next⟩ event listener := by
  obtain ⟨_, -, allowed⟩ := run.within_of_mem (History.mem_of_mem_stepsAt mem).1
  obtain ⟨_, _, _, -, performed⟩ := Engine.perform_of_heard allowed heard
  exact ⟨_, performed⟩

theorem keeps_listeners {x : Engine × Move} (run : Run (h₁ ++ h₀) e) (mem : x ∈ h₁) (n : NodeId) (kind : String) :
    x.1.graph.forest.listeners n kind <+: e.graph.forest.listeners n kind ∧
      ∀ callback, x.2 = .edit (.listen n kind callback) → n.index < x.1.graph.forest.size →
        x.1.graph.forest.listeners n kind ++ [.call callback] <+: e.graph.forest.listeners n kind := by
  obtain ⟨h₃, h₂, rfl⟩ := List.append_of_mem mem
  rw [List.append_assoc] at run
  obtain ⟨e', m⟩ := x
  obtain ⟨earlier, allowed, after⟩ := run.of_move
  have later : (e'.perform m).graph.forest.listeners n kind <+: e.graph.forest.listeners n kind :=
    (after.listeners_onward run n).filterMap _
  refine ⟨((Engine.listeners_perform earlier.wellFormed allowed n).filterMap _).trans later, ?_⟩
  rintro callback rfl exist
  rw [← Forest.listeners_of_listen exist]
  exact later

theorem delivery_proceeds {first : Option Error} (answer : Reply → Except Error Unit) (run : Run h e)
    (frames : e.frames = .delivery n event left first :: below) :
    ∃ h₁ e' first', Run (h₁ ++ h) e' ∧ Answers answer below h₁ ∧ e'.frames = .delivery n event left first' :: below ∧
      e'.turn = .next := by
  by_cases turn : e.turn = .next
  · exact ⟨[], e, first, run, List.forall_mem_nil _, frames, turn⟩
  · obtain ⟨h₁, e', r, run', answers, frames'⟩ := run.accepts answer frames turn
    refine ⟨h₁, _, first.or (failuresOf r).head?, run', answers, ?_⟩
    rw [Engine.accept, frames']
    exact ⟨rfl, rfl⟩

theorem hear_returns {listener : Listener} {first : Option Error} (answer : Reply → Except Error Unit) (run : Run h e)
    (frames : e.frames = .delivery n event (listener :: left) first :: below) (turn : e.turn = .next) :
    ∃ h₁ e', Run (h₁ ++ h) e' ∧ Answers answer below h₁ ∧ e'.frames = .delivery n event left first :: below := by
  have run₁ := run.move (allows_step (.inl turn))
  have answers : Answers answer below [(e, .step)] := .single frames (.inl rfl)
  have heard : e.perform .step =
      Engine.hear ⟨e.graph, .delivery n event left first :: below, .next⟩ event listener := by
    obtain ⟨g, stack, _⟩ := e
    cases frames
    cases turn
    rfl
  rw [heard] at run₁
  rcases Engine.hear_cases ⟨e.graph, .delivery n event left first :: below, .next⟩ event listener with
    ⟨⟨_, same⟩, -⟩ | ⟨_, path, _, _, -, -, -, ⟨-, -, same⟩ | ⟨t, -, -, same⟩⟩
  · exact ⟨_, _, run₁, answers, by rw [same]⟩
  · exact ⟨_, _, run₁, answers, by rw [same]⟩
  · -- a text is written, and the pass that this begins ends
    obtain ⟨h₂, e', run₂, passed, ended⟩ := run₁.pass_ends answer (by rw [same]; rfl)
    refine ⟨h₂ ++ [(e, .step)], e', ?_, answers.append (passed.of_suffix (List.suffix_cons _ _)), ended⟩
    rw [List.append_assoc]
    exact run₂

theorem delivery_ends {first : Option Error} (answer : Reply → Except Error Unit) (run : Run h e)
    (frames : e.frames = .delivery n event left first :: below) :
    ∃ h₁ e', Run (h₁ ++ h) e' ∧ Answers answer below h₁ ∧ e'.frames = below := by
  induction left generalizing h e first with
  | nil =>
    obtain ⟨h₁, e₁, _, run₁, answers, frames₁, turn⟩ := run.delivery_proceeds answer frames
    have answers := answers.append (.single frames₁ (.inl rfl))
    refine ⟨[(e₁, .step)] ++ h₁, _, run₁.move (allows_step (.inl turn)), answers, ?_⟩
    rw [Engine.perform, Engine.step?, turn, Option.getD_some, Engine.proceed, frames₁]
    rfl
  | cons listener left ih =>
    obtain ⟨h₁, e₁, _, run₁, proceeded, frames₁, turn⟩ := run.delivery_proceeds answer frames
    obtain ⟨h₂, e₂, run₂, returned, frames₂⟩ := run₁.hear_returns answer frames₁ turn
    obtain ⟨h₃, e₃, run₃, ended, frames₃⟩ := ih run₂ frames₂
    refine ⟨h₃ ++ (h₂ ++ h₁), e₃, ?_, (proceeded.append returned).append ended, frames₃⟩
    rw [List.append_assoc, List.append_assoc]
    exact run₃

theorem returns (answer : Reply → Except Error Unit) (run : Run h e) (frames : e.frames = frame :: below)
    (last : ∀ e' : Engine, e'.frames = frame :: below → e'.proceed.frames = below ∧ ∀ r, (e'.accept r).frames = below) :
    ∃ h₁ e', Run (h₁ ++ h) e' ∧ Answers answer below h₁ ∧ e'.frames = below := by
  by_cases turn : e.turn = .next
  · have run₁ := run.move (allows_step (.inl turn))
    rw [Engine.perform, Engine.step?, turn, Option.getD_some] at run₁
    exact ⟨[(e, .step)], _, run₁, .single frames (.inl rfl), (last e frames).1⟩
  · obtain ⟨h₁, e', r, run₁, answers, frames₁⟩ := run.accepts answer frames turn
    exact ⟨h₁, _, run₁, answers, (last e' frames₁).2 r⟩

theorem work_ends (answer : Reply → Except Error Unit) (run : Run h e) (frames : e.frames = frame :: below) :
    ∃ h₁ e', Run (h₁ ++ h) e' ∧ Answers answer below h₁ ∧ e'.frames = below := by
  cases frame with
  | pass => exact run.pass_ends answer frames
  | delivery => exact run.delivery_ends answer frames
  | run s =>
    apply run.returns answer frames
    intro e' frames'
    rw [Engine.proceed, frames']
    exact ⟨rfl, fun r => by rw [Engine.accept, frames']; rfl⟩
  | method =>
    apply run.returns answer frames
    intro e' frames'
    rw [Engine.proceed, frames']
    exact ⟨rfl, fun r => by rw [Engine.accept, frames']; rfl⟩

theorem unwinds {above : List Frame} (answer : Reply → Except Error Unit) (run : Run h e)
    (frames : e.frames = above ++ below) : ∃ h₁ e', Run (h₁ ++ h) e' ∧ Answers answer below h₁ ∧ e'.frames = below := by
  induction above generalizing h e with
  | nil => exact ⟨[], e, run, List.forall_mem_nil _, frames⟩
  | cons frame above ih =>
    obtain ⟨h₁, e₁, run₁, ended, frames₁⟩ := run.work_ends answer frames
    obtain ⟨h₂, e₂, run₂, unwound, frames₂⟩ := ih run₁ frames₁
    refine ⟨h₂ ++ h₁, e₂, by rwa [List.append_assoc], Answers.append ?_ unwound, frames₂⟩
    exact ended.of_suffix (List.suffix_append _ _)

theorem dispatched (run : Run (h₁ ++ (e₀, m) :: h₀) e) (announced : e₀.announced? m = some (n, event))
    (within : ∀ x ∈ h₁, e₀.frames.length < x.1.frames.length) : Dispatched h₁ e₀ m h₀ e n event := by
  obtain ⟨-, -, run₁⟩ := run.of_move
  obtain ⟨g, started⟩ := delivery_of_announced? announced
  have begun := run₁
  rw [started] at begun
  exact
    { begins := run₁.head_stepsAt (by rw [started]) (by rw [started]; rfl) run
      runs := fun x mem n' event' listener heard => run.hear_of_stepsAt mem heard
      order := by
        rcases begun.delivering_or_delivered run within with ⟨_, left, -, course⟩ | ⟨-, heard, -⟩
        · exact ⟨_, course⟩
        · exact heard ▸ List.prefix_refl _
      turns := by
        intro es earlier
        obtain ⟨h₃, h₂, rfl, rfl⟩ := History.exists_of_prefix earlier
        rw [List.append_assoc] at run
        obtain ⟨e', run'⟩ := run.earlier
        have matched := begun.matched run' fun x hx => within x (List.mem_append_right _ hx)
        have waits := awaited_le_one (e₀.frames.length + 1) e'
        rw [Matched] at matched
        omega
      finishes := by
        intro ended
        have matched := begun.matched run within
        rw [Matched, awaited_of_over (Nat.lt_succ_of_le ended)] at matched
        rcases begun.delivering_or_delivered run within with ⟨_, left, frames, -⟩ | ⟨frames, heard, turn⟩
        · rw [frames, List.length_append, List.length_cons] at ended
          omega
        · refine ⟨frames, heard, ?_, _, turn, deliveryResult_eq_ok, fun err => deliveryResult_eq_error⟩
          rw [Nat.add_zero] at matched
          rw [matched, heard, List.length_map]
      keeps := fun x mem n' kind => run.keeps_listeners mem n' kind
      ends := by
        intro answer
        rcases begun.delivering_or_delivered run within with ⟨above, left, frames, -⟩ | ⟨frames, -⟩
        · exact run.unwinds answer (frames.trans (List.append_cons above _ _))
        · exact ⟨[], e, run, List.forall_mem_nil _, frames⟩ }

/-- An event is heard by those who listen to its kind when its delivery begins, whatever is done meanwhile. -/
theorem event_dispatched (run : Run (h₁ ++ (e₀, m) :: h₀) e) :
    (∀ n event, e₀.announced? m = some (n, event) → (∀ x ∈ h₁, e₀.frames.length < x.1.frames.length) →
      Dispatched h₁ e₀ m h₀ e n event) ∧
    ∀ n text, m = .input n text →
      (∀ tag attributes old, e₀.graph.forest.content n = .element tag attributes old →
        e₀.announced? m = some (n, ⟨"input", some text⟩) ∧
          (e₀.perform m).graph.forest.content n = .element tag attributes text) ∧
      ((∀ tag attributes old, e₀.graph.forest.content n ≠ .element tag attributes old) →
        e₀.announced? m = none ∧ e₀.perform m = e₀.answer (.error (.document (.notElement .setValue)))) := by
  refine ⟨?_, ?_⟩
  · intro n event announced within
    exact run.dispatched announced within
  · rintro n text rfl
    exact ⟨fun _ _ _ element => e₀.input_of_element element text, fun other => e₀.input_of_other other text⟩

def attaching : List Move :=
  [.edit (.createElement "input"), .edit (.listen ⟨0⟩ "input" ⟨0⟩), .edit (.listen ⟨0⟩ "click" ⟨1⟩),
    .edit (.listen ⟨0⟩ "input" ⟨2⟩), .edit (.listen ⟨0⟩ "input" ⟨3⟩)]

/-- The first listener adds another one and clicks. The other two fail. -/
def interfering : List Move :=
  [.step, .edit (.listen ⟨0⟩ "input" ⟨4⟩), .dispatch ⟨0⟩ ⟨"click", none⟩, .step, .resume (.ok ()), .step, .step,
    .resume (.ok ()), .step, .step, .resume (.error .configuration), .step, .step,
    .resume (.error (.failedListener "input" "late")), .step, .step]

def attached : Engine := Engine.after {} attaching

def announced : Engine := attached.perform (.input ⟨0⟩ "x")

def interfered : Engine := announced.after interfering

theorem interfered_event_dispatched :
    announced.graph.forest.content ⟨0⟩ = .element "input" [] "x" ∧
      Dispatched (announced.trace interfering) attached (.input ⟨0⟩ "x") (Engine.trace {} attaching) interfered ⟨0⟩
        ⟨"input", some "x"⟩ ∧
      hearings (History.stepsAt 1 (announced.trace interfering)) =
        [.call ⟨0⟩, .call ⟨2⟩, .call ⟨3⟩].map (⟨0⟩, ⟨"input", some "x"⟩, ·) ∧
      interfered.turn = .environment (.answer (.done (.error .configuration))) ∧
      interfered.graph.forest.listeners ⟨0⟩ "input" = [.call ⟨0⟩, .call ⟨2⟩, .call ⟨3⟩, .call ⟨4⟩] := by
  have before : Run (Engine.trace {} attaching) attached := Run.of_admits (by decide +kernel)
  have allowed : attached.Allows (.input ⟨0⟩ "x") := by decide +kernel
  have after : Run ((attached, .input ⟨0⟩ "x") :: Engine.trace {} attaching) announced := before.move allowed
  have run : Run (announced.trace interfering ++ (attached, .input ⟨0⟩ "x") :: Engine.trace {} attaching) interfered :=
    after.after interfering (by decide +kernel)
  have element : attached.graph.forest.content ⟨0⟩ = .element "input" [] "" := rfl
  have within : ∀ x ∈ announced.trace interfering, attached.frames.length < x.1.frames.length := by decide +kernel
  obtain ⟨delivered, typed⟩ := run.event_dispatched
  obtain ⟨heeded, shown⟩ := (typed ⟨0⟩ "x" rfl).1 _ _ _ element
  have dispatched := delivered _ _ heeded within
  obtain ⟨-, heard, -, r, turn, -, failed⟩ := dispatched.finishes (by decide +kernel)
  have results : results (History.stepsAt (attached.frames.length + 1) (announced.trace interfering)) =
      [.ok ()] ++ .error .configuration :: [.error (.failedListener "input" "late")] := rfl
  have due : attached.graph.forest.listeners ⟨0⟩ "input" = [.call ⟨0⟩, .call ⟨2⟩, .call ⟨3⟩] := rfl
  rw [(failed .configuration).2 ⟨_, _, results, by simp⟩] at turn
  exact ⟨shown, dispatched, heard.trans (congrArg _ due), turn, rfl⟩

end Run

end DataBinding
