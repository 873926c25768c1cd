import DataBinding.Proofs.ReaderRegistration

namespace DataBinding

def Engine.put? (e : Engine) : Move → Option (StoreId × String × Value)
  | .step => match e.turn, e.frames with
    | .next, .delivery _ event (listener :: _) _ :: _ =>
      (e.typed? event listener).bind fun (s, key) => event.value.map fun text => (s, key, .string text)
    | _, _ => none
  | .write s key v => some (s, key, v)
  | .writePath s path v => (e.graph.walk? s path.parents).map (·, path.last, v)
  | _ => none

def Move.turn (r : Except Error Unit) : Move → Turn
  | .step => .result r
  | _ => .environment (.answer (.done r))

def Engine.visited? (e : Engine) : Option (SubscriberId × Bool) :=
  match e.turn, e.frames with
  | .next, .pass _ _ (s :: _) _ :: _ => some (s, e.graph.alive s)
  | _, _ => none

def Engine.accepted? (e : Engine) : Option (Except Error Unit) :=
  match e.turn with
  | .result r => some r
  | _ => none

def History.stepsAt (depth : Nat) : History → List Engine
  | [] => []
  | (e, m) :: h => stepsAt depth h ++ if m.isStep ∧ e.frames.length = depth then [e] else []

def visits (es : List Engine) : List (SubscriberId × Bool) := es.filterMap Engine.visited?

def updates (es : List Engine) : List SubscriberId := es.filterMap (·.updated? .step)

def results (es : List Engine) : List (Except Error Unit) := es.filterMap Engine.accepted?

/-- The course of a pass: it comes to those who are due one after the other, updates those of them who are alive
and takes in one result for each update. -/
structure Course (due left : List SubscriberId) (running : Nat) (es : List Engine) : Prop where
  order : (visits es).map Prod.fst ++ left = due
  alive : updates es = ((visits es).filter Prod.snd).map Prod.fst
  answered : (results es).length + running = (updates es).length

variable {due left pending : List SubscriberId} {running : Option SubscriberId} {es : List Engine} {e e' : Engine}
  {m : Move} {s : SubscriberId} {purpose : Purpose} {below frames : List Frame} {failures : List Error} {h : History}
  {depth : Nat} {g : Graph}

@[simp]
theorem visits_concat (es : List Engine) (e : Engine) : visits (es ++ [e]) = visits es ++ e.visited?.toList := by
  rw [visits, List.filterMap_append, visits]
  cases he : e.visited? <;> simp [he]

@[simp] theorem updates_concat (es : List Engine) (e : Engine) :
    updates (es ++ [e]) = updates es ++ (e.updated? .step).toList := by
  rw [updates, List.filterMap_append, updates]
  cases he : e.updated? .step <;> simp [he]

@[simp]
theorem results_concat (es : List Engine) (e : Engine) : results (es ++ [e]) = results es ++ e.accepted?.toList := by
  rw [results, List.filterMap_append, results]
  cases he : e.accepted? <;> simp [he]

namespace Course

theorem start (due : List SubscriberId) : Course due due 0 [] := ⟨rfl, rfl, rfl⟩

theorem concat {left' : List SubscriberId} {k k' : Nat} (course : Course due left k es)
    (order : e.visited?.toList.map Prod.fst ++ left' = left)
    (alive : (e.updated? .step).toList = (e.visited?.toList.filter Prod.snd).map Prod.fst)
    (answered : e.accepted?.toList.length + k' = (e.updated? .step).toList.length + k) :
    Course due left' k' (es ++ [e]) where
  order := by rw [visits_concat, List.map_append, List.append_assoc, order, course.order]
  alive := by rw [visits_concat, updates_concat, List.filter_append, List.map_append, course.alive, alive]
  answered := by
    have before := course.answered
    rw [results_concat, updates_concat, List.length_append, List.length_append]
    omega

theorem skip (course : Course due (s :: left) 0 es) (gone : g.alive s = false) :
    Course due left 0 (es ++ [⟨g, .pass purpose running (s :: left) failures :: below, .next⟩]) := by
  apply course.concat <;> simp [Engine.visited?, Engine.updated?, Engine.accepted?, gone]

theorem update (course : Course due (s :: left) 0 es) (alive : g.alive s = true) :
    Course due left 1 (es ++ [⟨g, .pass purpose running (s :: left) failures :: below, .next⟩]) := by
  apply course.concat <;> simp [Engine.visited?, Engine.updated?, Engine.accepted?, alive]

theorem accept (course : Course due left 1 es) (r : Except Error Unit) :
    Course due left 0 (es ++ [⟨g, frames, .result r⟩]) := by
  apply course.concat <;> simp [Engine.visited?, Engine.updated?, Engine.accepted?]

theorem finish (course : Course due [] 0 es) :
    Course due [] 0 (es ++ [⟨g, .pass purpose running [] failures :: below, .next⟩]) := by
  apply course.concat <;> simp [Engine.visited?, Engine.updated?, Engine.accepted?]

end Course

theorem History.stepsAt_of_ne (h : History) (others : m = .step → e.frames.length ≠ depth) :
    History.stepsAt depth ((e, m) :: h) = h.stepsAt depth := by
  have other : ¬ (m.isStep = true ∧ e.frames.length = depth) := fun here => others ((m.isStep_iff).1 here.1) here.2
  rw [stepsAt, if_neg other, List.append_nil]

theorem History.stepsAt_step (h : History) (here : e.frames.length = depth) :
    History.stepsAt depth ((e, .step) :: h) = h.stepsAt depth ++ [e] := by
  rw [stepsAt, if_pos ⟨rfl, here⟩]

theorem History.mem_of_mem_stepsAt (mem : e ∈ h.stepsAt depth) :
    (e, Move.step) ∈ h ∧ e.frames.length = depth := by
  induction h with
  | nil => cases mem
  | cons x h ih =>
    obtain ⟨e', m⟩ := x
    rw [stepsAt] at mem
    rcases List.mem_append.1 mem with earlier | here
    · exact ⟨List.mem_cons_of_mem _ (ih earlier).1, (ih earlier).2⟩
    · split at here
      · next own =>
        rw [List.mem_singleton] at here
        subst here
        rw [(Move.isStep_iff m).1 own.1]
        exact ⟨List.mem_cons_self, own.2⟩
      · cases here

namespace Engine

theorem stacked_of_cons {f : Frame} (frames : e'.frames = f :: stack) :
    ∃ top, e'.frames = top ++ stack ∧ (top = [] → e'.turn ≠ .next) :=
  ⟨[f], frames, fun bare => absurd bare (List.cons_ne_nil f [])⟩

theorem stacked_of_environment (frames : e'.frames = stack) (turn : e'.turn = .environment reply) :
    ∃ top, e'.frames = top ++ stack ∧ (top = [] → e'.turn ≠ .next) :=
  ⟨[], frames, fun _ next => Turn.noConfusion (turn.symm.trans next)⟩

theorem turn_update (e : Engine) (s : SubscriberId) : (e.update s).turn ≠ .next := by
  have updates := updates_update e s
  generalize e.update s = e' at updates
  cases updates <;> nofun

theorem stack_steps (h : Steps e e') (busy : e.frames ≠ []) :
    ∃ top, e'.frames = top ++ e.frames.tail ∧ (top = [] → e'.turn ≠ .next) := by
  cases h with
  | rest => exact absurd rfl busy
  | accept => exact absurd rfl busy
  | @pass _ purpose => exact ⟨[], rfl, fun _ => by cases purpose <;> nofun⟩
  | skip gone => exact stacked_of_cons rfl
  | update alive => exact stacked_of_cons (frames_update _ _)
  | delivery => exact ⟨[], rfl, fun _ => nofun⟩
  | @hear g n event listener pending first frames =>
    rcases hear_cases ⟨g, .delivery n event pending first :: frames, .next⟩ event listener with
      ⟨⟨turn, h⟩, -⟩ | ⟨m, path, record, text, -, -, -, ⟨-, -, h⟩ | ⟨t, -, -, h⟩⟩
    · exact stacked_of_cons (by rw [h]; rfl)
    · exact stacked_of_cons (by rw [h]; rfl)
    · exact ⟨[_, _], by rw [h]; rfl, nofun⟩
  | run => exact ⟨[], rfl, fun _ => nofun⟩
  | method => exact ⟨[], rfl, fun _ => nofun⟩
  | acceptPass => exact stacked_of_cons rfl
  | acceptDelivery => exact stacked_of_cons rfl
  | acceptRun => exact ⟨[], rfl, fun _ => nofun⟩
  | acceptMethod => exact ⟨[], rfl, fun _ => nofun⟩

theorem stack_perform (waiting : e.turn ≠ .next) (others : m ≠ .step) :
    ∃ top, (e.perform m).frames = top ++ e.frames ∧ (top = [] → (e.perform m).turn ≠ .next) := by
  cases m with
  | step => exact absurd rfl others
  | resume r => exact ⟨[], rfl, fun _ => nofun⟩
  | write s key v => exact stacked_of_cons rfl
  | writePath s path v =>
    simp only [perform, writePath]
    cases e.graph.walk? s path.parents with
    | none => exact stacked_of_environment rfl rfl
    | some t => exact stacked_of_cons rfl
  | notify r => exact stacked_of_cons rfl
  | run s => exact stacked_of_cons (frames_update _ _)
  | call m name event =>
    simp only [perform, call]
    cases (e.graph.model m).methods.get? name with
    | none => exact stacked_of_environment rfl rfl
    | some callback => exact stacked_of_cons rfl
  | dispatch n event => exact stacked_of_cons rfl
  | input n text =>
    simp only [perform, input]
    cases e.graph.forest.setValue n text with
    | error err => exact stacked_of_environment rfl rfl
    | ok f => exact stacked_of_cons rfl
  | _ => exact ⟨[], rfl, fun _ => waiting⟩

theorem own_or_above {frame : Frame} {above : List Frame} (frames : e.frames = above ++ frame :: below)
    (allowed : e.Allows m) :
    above = [] ∧ m = .step ∨ (m = .step → e.frames.length ≠ below.length + 1) ∧ (above = [] → e.turn ≠ .next) ∧
      ∃ above', (e.perform m).frames = above' ++ frame :: below ∧ (above' = [] → (e.perform m).turn ≠ .next) := by
  by_cases own : m = .step
  · subst own
    cases above with
    | nil => exact .inl ⟨rfl, rfl⟩
    | cons f above =>
      obtain ⟨top, frames', busy⟩ := stack_steps (steps_of_allows allowed) (by rw [frames]; exact List.cons_ne_nil _ _)
      rw [frames, List.cons_append, List.tail_cons, ← List.append_assoc] at frames'
      refine .inr ⟨?_, fun none => absurd none (List.cons_ne_nil f above), top ++ above, frames', ?_⟩
      · intro _ same
        rw [frames] at same
        simp at same
        omega
      · exact fun none => busy (List.append_eq_nil_iff.1 none).1
  · have waiting : e.turn ≠ .next := fun next => own (allowed.1.2 (by rw [step?, next]; rfl))
    obtain ⟨top, frames', busy⟩ := stack_perform waiting own
    rw [frames, ← List.append_assoc] at frames'
    refine .inr ⟨fun same => absurd same own, fun _ => waiting, top ++ above, frames', ?_⟩
    exact fun none => busy (List.append_eq_nil_iff.1 none).1

theorem startWrite_eq (e : Engine) (purpose : Purpose) (t : StoreId) (key : String) (v : Value) :
    ∃ g, e.startWrite purpose t key v =
        ⟨g, .pass purpose none (e.graph.live (.property t key)) [] :: e.frames, .next⟩ ∧
      (t.index < e.graph.stores.size → g.property? t key = some v) := by
  have live : (e.graph.install t key v).live (.property t key) = e.graph.live (.property t key) := by
    rw [Graph.live, Graph.readers_install]
    rfl
  refine ⟨(e.graph.install t key v).prune (.property t key), ?_, ?_⟩
  · rw [startWrite, startPass, live]
  · intro exist
    simp [Graph.prune, exist]

theorem frames_proceed (frames : e.frames = .pass purpose running (s :: left) failures :: below) :
    ∃ running', e.proceed.frames = .pass purpose running' left failures :: below := by
  rw [proceed, frames]
  dsimp only
  split
  · exact ⟨some s, frames_update _ _⟩
  · exact ⟨none, rfl⟩

theorem pass_of_hear {g : Graph} {n : NodeId} {event : Event} {listener : Listener} {rest : List Listener}
    {first : Option Error} {t : StoreId} {key : String} {v : Value}
    (put : put? ⟨g, .delivery n event (listener :: rest) first :: frames, .next⟩ .step = some (t, key, v)) :
    ∃ g', hear ⟨g, .delivery n event rest first :: frames, .next⟩ event listener =
        ⟨g', .pass (.input key) none (g.live (.property t key)) [] :: .delivery n event rest first :: frames, .next⟩ ∧
      (t.index < g.stores.size → g'.property? t key = some v) := by
  simp only [put?] at put
  have same : typed? ⟨g, .delivery n event (listener :: rest) first :: frames, .next⟩ event listener =
      typed? ⟨g, .delivery n event rest first :: frames, .next⟩ event listener := rfl
  rw [same] at put
  rcases hear_cases ⟨g, .delivery n event rest first :: frames, .next⟩ event listener with
    ⟨-, quiet⟩ | ⟨m, path, record, text, -, value, -, ⟨-, quiet, -⟩ | ⟨u, -, typed, heard⟩⟩
  · rw [quiet] at put
    cases put
  · rw [quiet] at put
    cases put
  · rw [typed, value] at put
    cases put
    obtain ⟨g', started, installed⟩ := startWrite_eq
      ⟨g.setRecord record (.string text), .delivery n event rest first :: frames, .next⟩ (.input path.last) u
      path.last (.string text)
    exact ⟨g', heard.trans started, installed⟩

theorem pass_of_put? {t : StoreId} {key : String} {v : Value} (allowed : e.Allows m)
    (put : e.put? m = some (t, key, v)) :
    ∃ purpose below g, e.perform m = ⟨g, .pass purpose none (e.graph.live (.property t key)) [] :: below, .next⟩ ∧
      below.length = e.frames.length ∧
      (t.index < e.graph.stores.size → g.property? t key = some v) ∧
      ∀ failures, purpose.turn failures = m.turn (writeResult key failures) := by
  cases m with
  | write t' key' v' =>
    simp only [put?, Option.some.injEq, Prod.mk.injEq] at put
    obtain ⟨rfl, rfl, rfl⟩ := put
    obtain ⟨g, started, installed⟩ := startWrite_eq e (.write key') t' key' v'
    exact ⟨_, _, g, started, rfl, installed, fun _ => rfl⟩
  | writePath t' path v' =>
    simp only [put?] at put
    simp only [perform, writePath]
    cases walk : e.graph.walk? t' path.parents with
    | none =>
      rw [walk] at put
      cases put
    | some u =>
      rw [walk] at put
      cases put
      obtain ⟨g, started, installed⟩ := startWrite_eq e (.write path.last) t path.last v
      exact ⟨_, _, g, started, rfl, installed, fun _ => rfl⟩
  | step =>
    have steps := steps_of_allows allowed
    generalize e.perform .step = e' at steps
    cases steps with
    | @hear g n event listener pending first frames =>
      obtain ⟨g', started, installed⟩ := pass_of_hear put
      exact ⟨.input key, _, g', started, rfl, installed, fun _ => rfl⟩
    | _ => cases put
  | _ => cases put

end Engine

def Underway (purpose : Purpose) (due : List SubscriberId) (below : List Frame) (h : History) (e : Engine) : Prop :=
  ∃ above running left,
    e.frames = above ++
      .pass purpose running left ((results (h.stepsAt (below.length + 1))).flatMap failuresOf) :: below ∧
    Course due left (if running.isSome then 1 else 0) (h.stepsAt (below.length + 1)) ∧
    (running = none ↔ above = [] ∧ e.turn = .next)

def Ended (purpose : Purpose) (due : List SubscriberId) (below : List Frame) (h : History) (e : Engine) : Prop :=
  e.frames = below ∧ Course due [] 0 (h.stepsAt (below.length + 1)) ∧
    e.turn = purpose.turn ((results (h.stepsAt (below.length + 1))).flatMap failuresOf)

theorem underway_of_idle (frames : e.frames =
      .pass purpose none left ((results (h.stepsAt (below.length + 1))).flatMap failuresOf) :: below)
    (turn : e.turn = .next) (course : Course due left 0 (h.stepsAt (below.length + 1))) (allowed : e.Allows m) :
    Underway purpose due below ((e, m) :: h) (e.perform m) ∨ Ended purpose due below ((e, m) :: h) (e.perform m) := by
  have own : m = .step := allowed.1.2 (by rw [Engine.step?, turn]; rfl)
  subst own
  have here : History.stepsAt (below.length + 1) ((e, .step) :: h) = h.stepsAt (below.length + 1) ++ [e] :=
    h.stepsAt_step (by rw [frames]; rfl)
  have steps := Engine.steps_of_allows allowed
  rw [Underway, Ended, here, results_concat, Engine.accepted?, turn, Option.toList_none, List.append_nil]
  obtain ⟨g, stack, turn⟩ := e
  dsimp only at frames turn
  subst frames turn
  generalize Engine.perform _ .step = e' at steps
  cases steps with
  | pass => exact .inr ⟨rfl, course.finish, rfl⟩
  | skip gone => exact .inl ⟨[], none, _, rfl, course.skip gone, by simp⟩
  | @update _ _ _ s pending _ _ alive =>
    refine .inl ⟨[], some s, pending, Engine.frames_update _ _, course.update alive,
      fun idle => absurd idle (Option.some_ne_none s), ?_⟩
    exact fun next => absurd next.2 (Engine.turn_update _ _)

theorem underway_of_waiting {above : List Frame} (frames : (e.perform m).frames = above ++
      .pass purpose (some s) left ((results (h.stepsAt (below.length + 1))).flatMap failuresOf) :: below)
    (busy : above = [] → (e.perform m).turn ≠ .next) (course : Course due left 1 (h.stepsAt (below.length + 1)))
    (others : m = .step → e.frames.length ≠ below.length + 1) :
    Underway purpose due below ((e, m) :: h) (e.perform m) := by
  rw [Underway, h.stepsAt_of_ne others]
  exact ⟨above, some s, left, frames, course, nofun, fun next => absurd next.2 (busy next.1)⟩

theorem underway_of_running {above : List Frame} (frames : e.frames = above ++
      .pass purpose (some s) left ((results (h.stepsAt (below.length + 1))).flatMap failuresOf) :: below)
    (busy : above = [] → e.turn ≠ .next) (course : Course due left 1 (h.stepsAt (below.length + 1)))
    (allowed : e.Allows m) : Underway purpose due below ((e, m) :: h) (e.perform m) := by
  rcases Engine.own_or_above frames allowed with ⟨rfl, rfl⟩ | ⟨others, -, above', frames', busy'⟩
  · -- the pass takes a result in
    have here : History.stepsAt (below.length + 1) ((e, .step) :: h) = h.stepsAt (below.length + 1) ++ [e] :=
      h.stepsAt_step (by rw [frames]; rfl)
    have steps := Engine.steps_of_allows allowed
    rw [Underway, here, results_concat]
    obtain ⟨g, stack, turn⟩ := e
    dsimp only [List.nil_append] at frames busy
    subst frames
    generalize Engine.perform _ .step = e' at steps
    cases steps with
    | @acceptPass _ _ _ _ _ _ r =>
      refine ⟨[], none, left, ?_, course.accept r, by simp⟩
      rw [Engine.accepted?, Option.toList_some, List.flatMap_append, List.flatMap_singleton]
      rfl
    | _ => exact absurd rfl (busy rfl)
  · exact underway_of_waiting frames' busy' course others

theorem Underway.perform (underway : Underway purpose due below h e) (allowed : e.Allows m) :
    Underway purpose due below ((e, m) :: h) (e.perform m) ∨ Ended purpose due below ((e, m) :: h) (e.perform m) := by
  obtain ⟨above, running, left, frames, course, idle⟩ := underway
  cases running with
  | none =>
    obtain ⟨rfl, turn⟩ := idle.1 rfl
    exact underway_of_idle frames turn course allowed
  | some s =>
    left
    apply underway_of_running frames _ course allowed
    exact fun none next => absurd (idle.2 ⟨none, next⟩) nofun

def Answers (answer : Reply → Except Error Unit) (below : List Frame) (h : History) : Prop :=
  ∀ x ∈ h, below.length < x.1.frames.length ∧
    (x.2 = .step ∨ ∃ reply, x.1.turn = .environment reply ∧ x.2 = .resume (answer reply))

theorem Answers.single {answer : Reply → Except Error Unit} {frame : Frame} (frames : e.frames = frame :: below)
    (answered : m = .step ∨ ∃ reply, e.turn = .environment reply ∧ m = .resume (answer reply)) :
    Answers answer below [(e, m)] := by
  intro x hx
  rw [List.mem_singleton.1 hx, frames]
  exact ⟨Nat.lt_succ_self _, answered⟩

theorem Answers.of_suffix {answer : Reply → Except Error Unit} (answers : Answers answer frames h)
    (outer : below <:+ frames) : Answers answer below h :=
  fun x hx => ⟨Nat.lt_of_le_of_lt outer.length_le (answers x hx).1, (answers x hx).2⟩

theorem Answers.append {answer : Reply → Except Error Unit} {h' : History} (first : Answers answer below h)
    (more : Answers answer below h') : Answers answer below (h' ++ h) := by
  intro x hx
  rcases List.mem_append.1 hx with hx | hx
  · exact more x hx
  · exact first x hx

namespace Run

variable {h₁ h₀ : History} {e₀ : Engine}

/-- What all moves within some work keep holds as long as it is under way, and when it is over. -/
theorem throughout (P : History → Engine → Prop) (run₀ : Run h₀ e₀) (start : P [] e₀) (run : Run (h₁ ++ h₀) e)
    (within : ∀ x ∈ h₁, depth < x.1.frames.length)
    (move : ∀ h e m, Run (h ++ h₀) e → (∀ x ∈ h, depth < x.1.frames.length) → depth < e.frames.length → e.Allows m →
      P h e → P ((e, m) :: h) (e.perform m)) : P h₁ e := by
  apply run₀.along run start
  intro h e m part earlier allowed
  have inside := fun x hx => within x (part.subset hx)
  exact move h e m earlier (fun x hx => inside x (List.mem_cons_of_mem _ hx)) (inside _ List.mem_cons_self) allowed

theorem underway_or_ended (run₀ : Run h₀ ⟨g, .pass purpose none due [] :: below, .next⟩) (run : Run (h₁ ++ h₀) e)
    (within : ∀ x ∈ h₁, below.length < x.1.frames.length) :
    Underway purpose due below h₁ e ∨ Ended purpose due below h₁ e := by
  refine run₀.throughout (fun h e => Underway purpose due below h e ∨ Ended purpose due below h e) ?_ run within ?_
  · exact .inl ⟨[], none, due, rfl, .start due, by simp⟩
  · rintro h e m - - inside allowed (underway | ⟨frames, -⟩)
    · exact underway.perform allowed
    · -- no more moves are within the pass when it is over
      rw [frames] at inside
      exact absurd inside (Nat.lt_irrefl _)

theorem allows_step (turn : e.turn = .next ∨ ∃ r, e.turn = .result r) : e.Allows .step := by
  refine ⟨⟨fun _ => ?_, fun _ => rfl⟩, trivial⟩
  rcases turn with turn | ⟨r, turn⟩ <;> rw [Engine.step?, turn] <;> rfl

theorem accepts {frame : Frame} (answer : Reply → Except Error Unit) (run : Run h e)
    (frames : e.frames = frame :: below) (waiting : e.turn ≠ .next) :
    ∃ (h₁ : History) (e' : Engine) (r : Except Error Unit),
      Run (h₁ ++ h) (e'.accept r) ∧ Answers answer below h₁ ∧ e'.frames = frame :: below := by
  cases turn : e.turn with
  | next => exact absurd turn waiting
  | result r =>
    have run' := run.move (allows_step (.inr ⟨r, turn⟩))
    rw [Engine.perform, Engine.step?, turn, Option.getD_some] at run'
    exact ⟨[(e, .step)], e, r, run', .single frames (.inl rfl), frames⟩
  | environment reply =>
    -- the callback is answered, and the next step takes the answer in
    have allowed : e.Allows (.resume (answer reply)) := by
      refine ⟨⟨fun same => Move.noConfusion same, fun steps => ?_⟩, ?_⟩
      · rw [Engine.step?, turn] at steps
        cases steps
      · rw [Engine.Has, frames]
        exact List.cons_ne_nil _ _
    have resumed : Answers answer below [(e, .resume (answer reply))] := .single frames (.inr ⟨reply, turn, rfl⟩)
    have accepted : Answers answer below [(e.resume (answer reply), .step)] := .single frames (.inl rfl)
    exact ⟨_, e.resume (answer reply), answer reply, (run.move allowed).move (allows_step (.inr ⟨_, rfl⟩)),
      resumed.append accepted, frames⟩

theorem pass_proceeds (answer : Reply → Except Error Unit) (run : Run h e)
    (frames : e.frames = .pass purpose running left failures :: below) :
    ∃ h₁ e' running' failures', Run (h₁ ++ h) e' ∧ Answers answer below h₁ ∧
      e'.frames = .pass purpose running' left failures' :: below ∧ e'.turn = .next := by
  by_cases turn : e.turn = .next
  · exact ⟨[], e, running, failures, run, List.forall_mem_nil _, frames, turn⟩
  · obtain ⟨h₁, e', r, run', answers, frames'⟩ := run.accepts answer frames turn
    refine ⟨h₁, _, none, failures ++ failuresOf r, run', answers, ?_⟩
    rw [Engine.accept, frames']
    exact ⟨rfl, rfl⟩

theorem pass_ends (answer : Reply → Except Error Unit) (run : Run h e)
    (frames : e.frames = .pass purpose running left failures :: below) :
    ∃ h₁ e', Run (h₁ ++ h) e' ∧ Answers answer below h₁ ∧ e'.frames = below := by
  induction left generalizing h e running failures with
  | nil =>
    obtain ⟨h₁, e₁, _, _, run₁, answers, frames₁, turn⟩ := run.pass_proceeds answer frames
    refine ⟨[(e₁, .step)] ++ h₁, _, run₁.move (allows_step (.inl turn)),
      answers.append (.single frames₁ (.inl rfl)), ?_⟩
    rw [Engine.perform, Engine.step?, turn, Option.getD_some, Engine.proceed, frames₁]
    cases purpose <;> rfl
  | cons s left ih =>
    obtain ⟨h₁, e₁, _, failures', run₁, answers, frames₁, turn⟩ := run.pass_proceeds answer frames
    have next : ∃ running', (e₁.perform .step).frames = .pass purpose running' left failures' :: below := by
      rw [Engine.perform, Engine.step?, turn, Option.getD_some]
      exact Engine.frames_proceed frames₁
    obtain ⟨running', frames₂⟩ := next
    obtain ⟨h₂, e', run', answers', ended⟩ := ih (run₁.move (allows_step (.inl turn))) frames₂
    refine ⟨h₂ ++ ([(e₁, .step)] ++ h₁), e', ?_, (answers.append (.single frames₁ (.inl rfl))).append answers', ended⟩
    rw [List.append_assoc]
    exact run'

theorem within_of_mem {x : Engine × Move} (run : Run (h₁ ++ h₀) e) (mem : x ∈ h₁) :
    ∃ h, Run (h ++ h₀) x.1 ∧ x.1.Allows x.2 := by
  induction h₁ generalizing e with
  | nil => cases mem
  | cons y h₁ ih =>
    cases run with
    | move earlier allowed =>
      rcases List.mem_cons.1 mem with rfl | mem
      · exact ⟨h₁, earlier, allowed⟩
      · exact ih earlier mem

/-- A subscriber that is updated adds another one, drops the next one, and writes another property, whose only reader
fails. It fails in turn. -/
def enlisting : List Move :=
  [.createStore [("a", .null), ("b", .null)], .createSubscriber none ⟨0⟩, .createSubscriber none ⟨1⟩,
    .createSubscriber none ⟨2⟩, .createSubscriber none ⟨3⟩, .register (.property ⟨0⟩ "a") ⟨0⟩,
    .register (.property ⟨0⟩ "a") ⟨1⟩, .readPath (some ⟨2⟩) ⟨0⟩ ⟨[], "a"⟩, .readPath (some ⟨2⟩) ⟨0⟩ ⟨[], "b"⟩]

def enlisted : Engine := Engine.after {} enlisting

def begun : Engine := enlisted.perform (.write ⟨0⟩ "a" (.bool true))

end Run

end DataBinding
