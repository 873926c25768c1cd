import DataBinding.Proofs.TypedTextDelivery

namespace DataBinding

theorem Graph.hasPath_of_valueAt {g : Graph} {s : StoreId} {path : Path} (found : g.valueAt s path ≠ .undefined) :
    g.hasPath s path = true := by
  have along (keys : List String) : ∀ s, (g.readAlong none s path.last keys).1 ≠ .undefined →
      ((g.walk? s keys).any fun t => g.hasKey t path.last) = true := by
    induction keys with
    | nil =>
      intro s found
      rw [walk?, Option.any_some]
      apply Decidable.byContradiction
      intro absent
      apply found
      rw [readAlong, read, peek, property?_eq_none absent]
      rfl
    | cons key keys ih =>
      intro s found
      rw [readAlong_cons] at found
      split at found
      · next next here =>
        rw [walk?, peek_of_property? here]
        apply ih next
        rwa [readAlong_congr (enrolled_track g none s key).property none] at found
      · exact absurd rfl found
  exact along path.parents s found

theorem Graph.hasPath_of_current {g : Graph} {w : Watcher} {text : String} (found : g.current w = .string text) :
    g.hasPath (g.origin w) w.path = true := by
  apply hasPath_of_valueAt
  rw [← current, found]
  exact Value.noConfusion

def Turn.isDone : Turn → Bool
  | .environment (.answer (.done (.ok _))) => true
  | _ => false

namespace Engine

variable {h : History} {e : Engine} {m : Move} {s : SubscriberId} {w w' : Watcher} {n : NodeId} {r : RecordId}
  {text : String} {k : Nat}

/-- Whatever the listener of a model binding writes is at the end of the path then: it has not cut the path. -/
def Reaches (e : Engine) (m : Move) (s : SubscriberId) (r : RecordId) : Prop :=
  (e.hearing? m r).isSome → (e.written? m).isSome →
    ∀ w ∈ e.graph.watcher? s, (e.perform m).graph.hasPath (e.graph.origin w) w.path = true

instance (e : Engine) (m : Move) (s : SubscriberId) (r : RecordId) : Decidable (e.Reaches m s r) :=
  inferInstanceAs (Decidable ((e.hearing? m r).isSome → (e.written? m).isSome →
    ∀ w ∈ e.graph.watcher? s, (e.perform m).graph.hasPath (e.graph.origin w) w.path = true))

/-- The record is what the watcher holds, and where that is the text, the data is the text. -/
structure Knows (e : Engine) (w : Watcher) (r : RecordId) (text : String) : Prop where
  recorded : e.graph.record r = w.value
  right : w.value = .string text → e.graph.current w = .string text

def Failed (k : Nat) (h : History) (e : Engine) : Prop :=
  (e.frames.length = k ∧ ∃ err, e.turn = .result (.error err)) ∨ firstFailure (h.stepsAt k) ≠ none

theorem failed_perform (allowed : e.Allows m) (failed : Failed k h e) : Failed k ((e, m) :: h) (e.perform m) := by
  right
  rcases failed with ⟨depth, err, turn⟩ | failed
  · have own : m = .step := allowed.1.2 (by rw [step?, turn]; rfl)
    subst own
    rw [h.stepsAt_step depth, firstFailure_concat, accepted?, turn]
    cases firstFailure (h.stepsAt k) <;> exact Option.some_ne_none _
  · by_cases here : m = .step ∧ e.frames.length = k
    · obtain ⟨rfl, depth⟩ := here
      obtain ⟨err, first⟩ := Option.ne_none_iff_exists'.1 failed
      rw [h.stepsAt_step depth, firstFailure_concat, first]
      exact Option.some_ne_none _
    · rwa [h.stepsAt_of_ne fun own depth => here ⟨own, depth⟩]

theorem text_kept (wf : e.WellFormed) (allowed : e.Allows m) (hw : e.graph.watcher? s = some w)
    (unwritten : ∀ p ∈ e.graph.reads (e.graph.origin w) w.path, e.written? m ≠ some p)
    (found : e.graph.current w = .string text) : (e.perform m).graph.current w = .string text := by
  rw [current_perform wf allowed hw (Graph.hasPath_of_current found) unwritten, found]

section Step

variable (wf : e.WellFormed) (wired : e.Wired) (allowed : e.Allows m) (hw : e.graph.watcher? s = some w)
  (target : w.reaction = .showValue n r)
include wf wired allowed hw target

theorem knows_perform (hw' : (e.perform m).graph.watcher? s = some w') (takes : e.graph.forest.takes (.value n))
    (deaf : e.hearing? m r = none)
    (unwritten : ∀ p ∈ e.graph.reads (e.graph.origin w) w.path, e.written? m ≠ some p) (knows : e.Knows w r text) :
    (e.perform m).Knows w' r text := by
  obtain ⟨recorded, right⟩ := knows
  by_cases updated : e.updated? m = some s
  · rcases updated_cases wired allowed hw hw' target takes updated with ⟨-, rfl, -, record⟩ | ⟨-, rfl, -, record⟩
    · exact ⟨record.trans recorded, fun held => text_kept wf allowed hw unwritten (right held)⟩
    · refine ⟨record, fun found => ?_⟩
      have kept := text_kept wf allowed hw unwritten found
      exact kept
  · obtain rfl := watcher_eq_of_not_updated wf allowed hw hw' updated
    have record := record_perform wf wired allowed hw target updated deaf
    exact ⟨record.trans recorded, fun held => text_kept wf allowed hw unwritten (right held)⟩

theorem perform_of_taken (taken : e.taken? m s r = some text) : (e.perform m).graph.record r = .string text ∧
    ((e.perform m).turn = .result (.error (.pathNotFound w.path)) ∨ (e.written? m).isSome) := by
  rw [taken?, hw, Option.bind_some, Option.filter_eq_some_iff] at taken
  rcases (perform_of_hearing wf wired allowed hw target taken.1).2 with ⟨same, -⟩
    | ⟨-, record, -, ⟨-, -, turn, -⟩ | ⟨written, -⟩⟩
  · simp [same] at taken
  · exact ⟨record, .inl turn⟩
  · exact ⟨record, .inr written⟩

theorem knows_hear (strict : w.policy = .strict) (heard : e.hearing? m r = some text) (reaches : e.Reaches m s r)
    (knows : e.Knows w r text) : (e.perform m).graph.current w = .string text ∨
      ((e.perform m).frames.length = e.frames.length ∧ ∃ err, (e.perform m).turn = .result (.error err)) := by
  rcases (perform_of_hearing wf wired allowed hw target heard).2 with ⟨same, -, graph⟩
    | ⟨-, -, -, ⟨-, -, turn, depth⟩ | ⟨written, arrives⟩⟩
  · left
    rw [strict] at same
    rw [graph]
    exact knows.right (knows.recorded.symm.trans (Value.strictEq_string.1 same))
  · exact .inr ⟨depth, _, turn⟩
  · exact .inl (arrives (reaches (by rw [heard]; rfl) written w hw))

theorem text_hear (heard : e.hearing? m r = some text) (reaches : e.Reaches m s r)
    (found : e.graph.current w = .string text) : (e.perform m).graph.current w = .string text := by
  rcases (perform_of_hearing wf wired allowed hw target heard).2 with ⟨-, -, graph⟩
    | ⟨-, -, -, ⟨lost, -⟩ | ⟨written, arrives⟩⟩
  · rw [graph, found]
  · obtain ⟨t, -, walk, -⟩ := Graph.exists_of_hasPath (Graph.hasPath_of_current found)
    cases lost.symm.trans walk
  · exact arrives (reaches (by rw [heard]; rfl) written w hw)

theorem recorded_perform (strict : w.policy = .strict) (takes : e.graph.forest.takes (.value n))
    (uncalled : e.invocation? m s = none) (hears : ∀ text' ∈ e.hearing? m r, text' = text)
    (record : e.graph.record r = .string text) : (e.perform m).graph.record r = .string text ∧
      ((e.hearing? m r).isSome → e.written? m = none ∧ (e.perform m).graph = e.graph) := by
  cases heard : e.hearing? m r with
  | some text' =>
    cases hears text' heard
    rcases (perform_of_hearing wf wired allowed hw target heard).2 with ⟨-, silent, graph⟩ | ⟨differs, -⟩
    · exact ⟨by rw [graph, record], fun _ => ⟨silent, graph⟩⟩
    · have same := Value.strictEq_string.2 record
      rw [strict] at differs
      cases same.symm.trans differs
  | none =>
    refine ⟨?_, nofun⟩
    rw [← record]
    by_cases updated : e.updated? m = some s
    · obtain ⟨w', hw', -⟩ := watched_perform wf allowed hw
      rcases called_cases wired allowed hw hw' target takes updated with ⟨-, -, -, kept⟩ | ⟨called, -⟩
      · exact kept
      · cases uncalled.symm.trans called
    · exact record_perform wf wired allowed hw target updated heard

end Step

end Engine

namespace Run

variable {h h₃ h₂ h₁ : History} {e₁ e₂ e : Engine} {m₁ : Move} {s : SubscriberId} {w w' : Watcher} {n : NodeId}
  {r : RecordId} {text : String}

theorem current_of_text (run : Run h e) (unique : e.UniqueIdentities) (alive : e.graph.alive s)
    (hw : e.graph.watcher? s = some w) (strict : w.policy = .strict) (settled : e.Settled)
    (held : w.value = .string text) : e.graph.current w = .string text := by
  obtain ⟨g, -, current⟩ := run.current unique alive hw
  have found : g.valueAt (g.origin w) w.path ≠ .undefined := by
    intro lost
    have holds := current.held
    rw [Graph.Holds, Graph.current, lost, held, strict] at holds
    rcases holds with same | same <;> cases same
  have holds : e.graph.Holds w := by
    apply current.of_settled settled
    intro p missed
    rw [Graph.missing?_of_hasPath (Graph.hasPath_of_valueAt found)] at missed
    cases missed
  rw [Graph.Holds, held, strict] at holds
  rcases holds with found | same
  · exact found
  · exact Value.strictEq_string.1 (Value.strictEq_symm same)

theorem recorded_since (run : Run (h₂ ++ (e₁, m₁) :: h₁) e) (hw : e₁.graph.watcher? s = some w)
    (target : w.reaction = .showValue n r) (taken : e₁.taken? m₁ s r = some text)
    (deaf : ∀ x ∈ h₂, x.1.hearing? x.2 r = none) (hw' : e.graph.watcher? s = some w') :
    (h₂.invocations s = [] → e.graph.record r = .string text) ∧
      (h₂.invocations s ≠ [] → e.graph.record r = w'.value) := by
  induction h₂ generalizing e w' with
  | nil =>
    cases run with
    | move run allowed =>
      exact ⟨fun _ => (Engine.perform_of_taken run.wellFormed run.wired allowed hw target taken).1,
        fun some => absurd rfl some⟩
  | cons x h₂ ih =>
    cases run with
    | @move _ e m run allowed =>
      have wf := run.wellFormed
      obtain ⟨w₁, hw₁, same₁⟩ := run.watched_later hw
      have target₁ : w₁.reaction = .showValue n r := by rw [same₁]; exact target
      obtain ⟨kept, called⟩ := ih run (fun y mem => deaf y (List.mem_cons_of_mem _ mem)) hw₁
      -- a move that neither calls the watcher nor is heard leaves both as they were
      have quiet (record : (e.perform m).graph.record r = e.graph.record r) (held : w' = w₁)
          (none : e.invocation? m s = none) :
          (History.invocations s ((e, m) :: h₂) = [] → (e.perform m).graph.record r = .string text) ∧
            (History.invocations s ((e, m) :: h₂) ≠ [] → (e.perform m).graph.record r = w'.value) := by
        rw [History.invocations_cons, none, Option.toList_none, List.append_nil, record, held]
        exact ⟨kept, called⟩
      by_cases updated : e.updated? m = some s
      · rcases Engine.called_cases run.wired allowed hw₁ hw' target₁ (run.takes hw₁ target₁) updated with
          ⟨none, held, -, record⟩ | ⟨told, -, record⟩
        · exact quiet record held none
        · rw [History.invocations_cons, told]
          exact ⟨fun none => absurd (List.append_eq_nil_iff.1 none).2 nofun, fun _ => record⟩
      · have held := Engine.watcher?_of_not_updated wf allowed (Graph.exists_of_watcher? hw₁) updated
        rw [held, hw₁] at hw'
        cases hw'
        exact quiet
          (Engine.record_perform wf run.wired allowed hw₁ target₁ updated (deaf _ List.mem_cons_self)) rfl
          (Engine.invocation?_of_not_updated updated)

namespace Typed

theorem arrives_or_fails (typed : Typed h₃ e₂ text h e s w n r) (strict : w.policy = .strict)
    (knows : e₂.Knows w r text) (leaves : ∀ x ∈ h₃, x.1.LeavesTyped x.2 s n r)
    (reaches : ∀ x ∈ h₃, x.1.Reaches x.2 s r) (hw' : e.graph.watcher? s = some w') :
    (e.Knows w' r text ∧ ∀ x ∈ h₃, x.1.hearing? x.2 r = none) ∨ e.graph.current w' = .string text ∨
      Engine.Failed (e₂.frames.length + 1) h₃ e := by
  induction h₃ generalizing e w' with
  | nil =>
    obtain ⟨run, allowed⟩ := typed.start
    cases typed.run.unique (run.move allowed)
    exact .inl ⟨Engine.knows_perform run.wellFormed run.wired allowed typed.watched typed.target hw'
      (run.takes typed.watched typed.target) rfl (fun _ _ => nofun) knows, List.forall_mem_nil _⟩
  | cons x h₃ ih =>
    obtain ⟨before, allowed, rfl⟩ := typed.earlier
    obtain ⟨e, m⟩ := x
    dsimp only at before allowed
    have wf := before.run.wellFormed
    have wired := before.run.wired
    obtain ⟨w₁, hw₁, same₁⟩ := before.watcher
    have target₁ : w₁.reaction = .showValue n r := by rw [same₁]; exact typed.target
    have strict₁ : w₁.policy = .strict := by rw [same₁]; exact strict
    have inside := typed.within _ List.mem_cons_self
    have reach := reaches _ List.mem_cons_self
    have unwritten := (leaves _ List.mem_cons_self).written
    have current (g : Graph) : g.current w' = g.current w₁ := by
      obtain ⟨w₂, hw₂, same₂⟩ := Engine.watched_perform wf allowed hw₁
      cases hw₂.symm.trans hw'
      rw [same₂]
      rfl
    -- the text is still to be heard, or it is at the path, or a listener has failed
    have stands := ih before (fun y mem => leaves y (List.mem_cons_of_mem _ mem))
      (fun y mem => reaches y (List.mem_cons_of_mem _ mem)) hw₁
    rcases stands with ⟨knows, deaf⟩ | found | failed
    · cases heard : e.hearing? m r with
      | none =>
        have takes := before.run.takes hw₁ target₁
        exact .inl ⟨Engine.knows_perform wf wired allowed hw₁ target₁ hw' takes heard (unwritten heard w₁ hw₁) knows,
          List.forall_mem_cons.2 ⟨heard, deaf⟩⟩
      | some text' =>
        obtain ⟨rfl, depth⟩ := before.hears inside heard
        rw [current]
        rcases Engine.knows_hear wf wired allowed hw₁ target₁ strict₁ heard reach knows with found | ⟨level, failed⟩
        · exact .inr (.inl found)
        · exact .inr (.inr (.inl ⟨level.trans depth, failed⟩))
    · right
      left
      rw [current]
      cases heard : e.hearing? m r with
      | none => exact Engine.text_kept wf allowed hw₁ (unwritten heard w₁ hw₁) found
      | some text' =>
        obtain ⟨rfl, -⟩ := before.hears inside heard
        exact Engine.text_hear wf wired allowed hw₁ target₁ heard reach found
    · exact .inr (.inr (Engine.failed_perform allowed failed))

theorem unwritten (typed : Typed h₃ e₂ text h e s w n r) (strict : w.policy = .strict)
    (record : e₂.graph.record r = .string text) (uncalled : h₃.invocations s = []) :
    e.graph.record r = .string text ∧
      ∀ x ∈ h₃, (x.1.hearing? x.2 r).isSome → x.1.written? x.2 = none ∧ (x.1.perform x.2).graph = x.1.graph := by
  induction h₃ generalizing e with
  | nil =>
    obtain ⟨run, allowed⟩ := typed.start
    cases typed.run.unique (run.move allowed)
    refine ⟨?_, List.forall_mem_nil _⟩
    rw [Engine.record_perform run.wellFormed run.wired allowed typed.watched typed.target nofun rfl, record]
  | cons x h₃ ih =>
    obtain ⟨before, allowed, rfl⟩ := typed.earlier
    obtain ⟨e, m⟩ := x
    dsimp only at before allowed
    rw [History.invocations_cons, List.append_eq_nil_iff, Option.toList_eq_nil_iff] at uncalled
    obtain ⟨record, silent⟩ := ih before uncalled.1
    obtain ⟨w₁, hw₁, same₁⟩ := before.watcher
    have target₁ : w₁.reaction = .showValue n r := by rw [same₁]; exact typed.target
    have strict₁ : w₁.policy = .strict := by rw [same₁]; exact strict
    have hears : ∀ text' ∈ e.hearing? m r, text' = text :=
      fun text' heard => (before.hears (typed.within _ List.mem_cons_self) heard).1
    obtain ⟨record', silent'⟩ := Engine.recorded_perform before.run.wellFormed before.run.wired allowed hw₁ target₁
      strict₁ (before.run.takes hw₁ target₁) uncalled.2 hears record
    exact ⟨record', List.forall_mem_cons.2 ⟨silent', silent⟩⟩

end Typed

/-- The listener of a model binding has taken a text that it could not write, and has heard of no text since. Then the
same text is typed outside of notifications. It is delivered without a failure, and nobody else writes to the path
meanwhile. -/
structure Retried (h₃ : History) (e₂ : Engine) (text : String) (h₂ : History) (e₁ : Engine) (m₁ : Move) (h₁ : History)
    (e : Engine) (s : SubscriberId) (w : Watcher) (n : NodeId) (r : RecordId) : Prop where
  run : Run (h₃ ++ (e₂, .input n text) :: (h₂ ++ (e₁, m₁) :: h₁)) e
  unique : e.UniqueIdentities
  alive : e.graph.alive s
  watched : e₁.graph.watcher? s = some w
  target : w.reaction = .showValue n r
  strict : (e₁.graph.model w.model).options.changeDetection = .strict
  taken : e₁.taken? m₁ s r = some text
  refused : e₁.written? m₁ = none
  deaf : ∀ x ∈ h₂, x.1.hearing? x.2 r = none
  outside : e₂.Settled
  within : ∀ x ∈ h₃, e₂.frames.length < x.1.frames.length
  bypass : ∀ x ∈ h₃, x.2.bypasses n = false
  leaves : ∀ x ∈ h₃, x.1.LeavesTyped x.2 s n r
  reaches : ∀ x ∈ h₃, x.1.Reaches x.2 s r
  returned : e.frames.length ≤ e₂.frames.length
  done : e.turn.isDone

/-- A text that cannot be written is refused. Typed again it arrives at the path if the watcher has been called between.
If it has not been called at all, the listener hears the text and writes nothing. -/
theorem input_retried (retried : Retried h₃ e₂ text h₂ e₁ m₁ h₁ e s w n r) :
    (e₁.perform m₁).turn = .result (.error (.pathNotFound w.path)) ∧
      (h₂.invocations s ≠ [] → e.graph.current w = .string text) ∧
      (h₂.invocations s = [] → h₃.invocations s = [] → (∃ x ∈ h₃, x.1.hearing? x.2 r = some text) ∧
        ∀ x ∈ h₃, (x.1.hearing? x.2 r).isSome → x.1.written? x.2 = none ∧ (x.1.perform x.2).graph = x.1.graph) := by
  obtain ⟨run, unique, alive, watched, target, strict, taken, refused, deaf, outside, within, bypass, leaves, reaches,
    returned, done⟩ := retried
  obtain ⟨run₂, -, -⟩ := run.of_move
  obtain ⟨run₁, allowed₁, -⟩ := run₂.of_move
  have policy : w.policy = .strict := by rw [(run₁.wellFormed.watchers watched).policy, strict]
  obtain ⟨w₂, hw₂, same₂⟩ := run₂.watched_later watched
  obtain ⟨kept, called⟩ := run₂.recorded_since watched target taken deaf hw₂
  have policy₂ : w₂.policy = .strict := by rw [same₂]; exact policy
  have typed : Typed h₃ e₂ text (h₂ ++ (e₁, m₁) :: h₁) e s w₂ n r :=
    ⟨run, hw₂, by rw [same₂]; exact target, within, fun x mem => ⟨bypass x mem, (leaves x mem).typed⟩⟩
  obtain ⟨⟨x, mem, heard⟩, turn⟩ := typed.heard returned
  refine ⟨?_, fun told => ?_, fun untold uncalled => ?_⟩
  · rcases (Engine.perform_of_taken run₁.wellFormed run₁.wired allowed₁ watched target taken).2 with turn | written
    · exact turn
    · rw [refused] at written
      cases written
  · have since : Run ((h₃ ++ [(e₂, .input n text)]) ++ (h₂ ++ (e₁, m₁) :: h₁)) e := by
      rwa [List.append_assoc]
    have alive₂ := (run₂.alive_since since).2 s (Graph.exists_of_watcher? hw₂) alive
    have right (held : w₂.value = .string text) : e₂.graph.current w₂ = .string text :=
      run₂.current_of_text (run₂.unique_since since unique) alive₂ hw₂ policy₂ outside held
    obtain ⟨w', hw', same'⟩ := typed.watcher
    have stands := typed.arrives_or_fails policy₂ ⟨called told, right⟩ leaves reaches hw'
    rcases stands with ⟨-, deaf⟩ | found | ⟨depth, -⟩ | failed
    · cases (deaf x mem).symm.trans heard
    · rw [same', same₂] at found
      exact found
    · omega
    · -- a failure would be the result
      obtain ⟨err, first⟩ := Option.ne_none_iff_exists'.1 failed
      rw [turn, first] at done
      cases done
  · exact ⟨⟨x, mem, heard⟩, (typed.unwritten policy₂ (kept untold) uncalled).2⟩

/-- A text is typed for the name of a user, but there is no user. -/
def trying : List Move :=
  [.createStore [("user", .null)], .createModel { data := ⟨0⟩, methods := [], options := {} },
    .edit (.createDocument [.element "p" [] [.element "input" [("model", "user.name")] []]]),
    .createCompiler ⟨0⟩ "p" ⟨0⟩, .init ⟨0⟩, .input ⟨2⟩ "x"]

def tried : Engine := Engine.after {} trying

def mending (user : List (String × Value)) : List Move :=
  [.step, .step, .createStore user, .write ⟨0⟩ "user" (.object ⟨1⟩), .step, .step, .step]

def mended (user : List (String × Value)) : Engine := (tried.perform .step).after (mending user)

def again (user : List (String × Value)) (steps : Nat) : Engine :=
  ((mended user).perform (.input ⟨2⟩ "x")).after (List.replicate steps .step)

def Again (user : List (String × Value)) (steps : Nat) (w : Watcher) : Prop :=
  Retried (((mended user).perform (.input ⟨2⟩ "x")).trace (List.replicate steps .step)) (mended user) "x"
    ((tried.perform .step).trace (mending user)) tried .step (Engine.trace {} trying) (again user steps) ⟨0⟩ w ⟨2⟩ ⟨0⟩

theorem again_of_admits (user : List (String × Value)) (steps : Nat)
    (admitted : (tried.perform .step).admits (mending user) ∧ (mended user).Allows (.input ⟨2⟩ "x") ∧
      ((mended user).perform (.input ⟨2⟩ "x")).admits (List.replicate steps .step))
    (kept : (again user steps).UniqueIdentities ∧ (again user steps).graph.alive ⟨0⟩)
    (deaf : ∀ x ∈ (tried.perform .step).trace (mending user), x.1.hearing? x.2 ⟨0⟩ = none)
    (outside : (mended user).Settled)
    (course : ∀ x ∈ ((mended user).perform (.input ⟨2⟩ "x")).trace (List.replicate steps .step),
      (mended user).frames.length < x.1.frames.length ∧ x.2.bypasses ⟨2⟩ = false ∧
        x.1.LeavesTyped x.2 ⟨0⟩ ⟨2⟩ ⟨0⟩ ∧ x.1.Reaches x.2 ⟨0⟩ ⟨0⟩)
    (returned : (again user steps).frames.length ≤ (mended user).frames.length)
    (done : (again user steps).turn.isDone) : ∃ w, Again user steps w := by
  have run : Run (Engine.trace {} trying) tried := Run.of_admits (by decide +kernel)
  have run := ((run.move (m := .step) (by decide +kernel)).after (mending user) admitted.1).move admitted.2.1
  have run := run.after (List.replicate steps .step) admitted.2.2
  have found : (tried.graph.watcher? ⟨0⟩).isSome = true := by decide +kernel
  have facts : ∀ w ∈ tried.graph.watcher? ⟨0⟩, w.reaction = .showValue ⟨2⟩ ⟨0⟩ ∧
      (tried.graph.model w.model).options.changeDetection = .strict := by decide +kernel
  obtain ⟨w, hw⟩ := Option.isSome_iff_exists.1 found
  obtain ⟨target, strict⟩ := facts w hw
  exact ⟨w, {
    run := run
    unique := kept.1
    alive := kept.2
    watched := hw
    target := target
    strict := strict
    taken := by decide +kernel
    refused := by decide +kernel
    deaf := deaf
    outside := outside
    within := fun x mem => (course x mem).1
    bypass := fun x mem => (course x mem).2.1
    leaves := fun x mem => (course x mem).2.2.1
    reaches := fun x mem => (course x mem).2.2.2
    returned := returned
    done := done }⟩

theorem again_without_name : ∃ w, Again [] 3 w := by
  apply again_of_admits <;> decide +kernel

theorem again_input_retried :
    (∃ w, Again [("name", .string "y")] 6 w ∧
      (again [("name", .string "y")] 6).graph.current w = .string "x") ∧
    ∃ w, Again [] 3 w ∧ ∀ x ∈ ((mended []).perform (.input ⟨2⟩ "x")).trace (List.replicate 3 .step),
      (x.1.hearing? x.2 ⟨0⟩).isSome → x.1.written? x.2 = none ∧ (x.1.perform x.2).graph = x.1.graph := by
  constructor
  · have retried : ∃ w, Again [("name", .string "y")] 6 w := by
      apply again_of_admits <;> decide +kernel
    obtain ⟨w, retried⟩ := retried
    exact ⟨w, retried, (input_retried retried).2.1 (by decide +kernel)⟩
  · obtain ⟨w, retried⟩ := again_without_name
    exact ⟨w, retried, ((input_retried retried).2.2 (by decide +kernel) (by decide +kernel)).2⟩

/-- The text is not at the path although it was typed again without a failure. -/
theorem input_not_retried : ∃ w, Again [] 3 w ∧ (again [] 3).graph.current w ≠ .string "x" := by
  have differs : ∀ w ∈ tried.graph.watcher? ⟨0⟩, (again [] 3).graph.current w ≠ .string "x" := by decide +kernel
  obtain ⟨w, retried⟩ := again_without_name
  exact ⟨w, retried, differs w retried.watched⟩

end Run

end DataBinding
