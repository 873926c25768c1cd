import DataBinding.Proofs.InvocationChain
import DataBinding.Proofs.ModelBindingAgreement
import DataBinding.Proofs.NotificationPasses

namespace DataBinding

def Engine.taken? (e : Engine) (m : Move) (s : SubscriberId) (r : RecordId) : Option String :=
  (e.graph.watcher? s).bind fun w =>
    (e.hearing? m r).filter fun text => !w.policy.same (.string text) (e.graph.record r)

def Engine.displays (e : Engine) (s : SubscriberId) (n : NodeId) (text : String) : Bool :=
  (e.graph.watcher? s).any (fun w => w.value = .string text) && e.graph.forest.shows (.value n) = some text

/-- The text taken last and the state in which it was taken, unless the watcher has been called since or the text
was displayed already. -/
def History.unanswered? (s : SubscriberId) (n : NodeId) (r : RecordId) : History → Option (Engine × String)
  | [] => none
  | (e, m) :: h =>
    if (e.invocation? m s).isSome then none
    else match e.taken? m s r with
      | some text => if e.displays s n text then none else some (e, text)
      | none => unanswered? s n r h

namespace Engine

variable {h : History} {e : Engine} {m : Move} {s : SubscriberId} {w w' : Watcher} {n : NodeId} {r : RecordId}
  {text : String} {k k' : Nat}

/-- While no text is left unanswered, the record is what the watcher holds. The input value shows it, or something
that the listener does not tell from it, or the text typed last above `k` deliveries. -/
structure Mirrors (h : History) (k : Nat) (e : Engine) (s : SubscriberId) (w : Watcher) (n : NodeId) (r : RecordId) :
    Prop where
  takes : e.graph.forest.takes (.value n)
  held : ∀ x ∈ h.unanswered? s n r, x.1.graph.watcher? s = some w ∧ x.1.displays s n x.2 = false
  recorded : h.unanswered? s n r = none → e.graph.record r = w.value
  shown : h.unanswered? s n r = none → ∃ text, e.graph.forest.shows (.value n) = some text ∧
    (text = (e.graph.record r).text ∨ w.policy.same (.string text) (e.graph.record r) = true ∨
      e.typingAbove? k r = some text)

theorem taken?_of_deaf (deaf : e.hearing? m r = none) : e.taken? m s r = none := by
  rw [taken?, deaf]
  cases e.graph.watcher? s <;> rfl

theorem unanswered?_of_quiet (others : e.invocation? m s = none) (taken : e.taken? m s r = none) :
    History.unanswered? s n r ((e, m) :: h) = h.unanswered? s n r := by
  simp only [History.unanswered?, others, taken, Option.isSome_none, Bool.false_eq_true, if_false]

theorem unanswered?_of_called {change : Value × Value} (called : e.invocation? m s = some change) :
    History.unanswered? s n r ((e, m) :: h) = none := by
  simp only [History.unanswered?, called, Option.isSome_some, if_true]

theorem unanswered?_of_taken (others : e.invocation? m s = none) (taken : e.taken? m s r = some text) :
    History.unanswered? s n r ((e, m) :: h) = if e.displays s n text then none else some (e, text) := by
  simp only [History.unanswered?, others, taken, Option.isSome_none, Bool.false_eq_true, if_false]

theorem mirrors_of_same (others : e.invocation? m s = none) (taken : e.taken? m s r = none)
    (graph : (e.perform m).graph = e.graph) (typing : e.typing? r = some text)
    (same : w.policy.same (.string text) (e.graph.record r) = true) (mirrors : Mirrors h k e s w n r) :
    Mirrors ((e, m) :: h) k (e.perform m) s w n r := by
  have answered := unanswered?_of_quiet (h := h) (n := n) others taken
  refine ⟨by rw [graph]; exact mirrors.takes, ?_, ?_, ?_⟩
  · rw [answered]
    exact mirrors.held
  · rw [answered, graph]
    exact mirrors.recorded
  · rw [answered, graph]
    intro answered
    obtain ⟨shown, shows, mirrored⟩ := mirrors.shown answered
    refine ⟨shown, shows, ?_⟩
    rcases mirrored with record | record | above
    · exact .inl record
    · exact .inr (.inl record)
    · -- the text that was on its way is the one that is heard
      cases typing.symm.trans (typing?_of_above above)
      exact .inr (.inl same)

theorem mirrors_of_taken (hw : e.graph.watcher? s = some w) (others : e.invocation? m s = none)
    (taken : e.taken? m s r = some text) (record : (e.perform m).graph.record r = .string text)
    (forest : (e.perform m).graph.forest = e.graph.forest) (takes : e.graph.forest.takes (.value n)) :
    Mirrors ((e, m) :: h) k (e.perform m) s w n r := by
  have takes' : (e.perform m).graph.forest.takes (.value n) := by
    rw [forest]
    exact takes
  have unanswered := unanswered?_of_taken (h := h) (n := n) others taken
  cases displayed : e.displays s n text with
  | false =>
    rw [displayed] at unanswered
    refine ⟨takes', ?_, ?_, ?_⟩
    · rw [unanswered]
      rintro _ ⟨⟩
      exact ⟨hw, displayed⟩
    · rw [unanswered]
      nofun
    · rw [unanswered]
      nofun
  | true =>
    rw [displayed] at unanswered
    simp only [displays, hw, Option.any_some, Bool.and_eq_true, decide_eq_true_eq] at displayed
    refine ⟨takes', ?_, fun _ => ?_, fun _ => ⟨text, ?_, .inl ?_⟩⟩
    · rw [unanswered]
      nofun
    · rw [record, displayed.1]
    · rw [forest]
      exact displayed.2
    · rw [record, Value.text]

theorem called_cases (wired : e.Wired) (allowed : e.Allows m) (hw : e.graph.watcher? s = some w)
    (hw' : (e.perform m).graph.watcher? s = some w') (target : w.reaction = .showValue n r)
    (takes : e.graph.forest.takes (.value n)) (updated : e.updated? m = some s) :
    (e.invocation? m s = none ∧ w' = w ∧ (e.perform m).graph.forest = e.graph.forest ∧
        (e.perform m).graph.record r = e.graph.record r) ∨
      (e.invocation? m s = some (w'.value, w.value) ∧
        (e.perform m).graph.forest.shows (.value n) = some w'.value.text ∧
        (e.perform m).graph.record r = w'.value) := by
  have called := invocation?_eq updated hw
  rcases updated_cases wired allowed hw hw' target takes updated with ⟨same, held, kept⟩ | ⟨changed, rfl, renewed⟩
  · rw [same] at called
    exact .inl ⟨called, held, kept⟩
  · rw [changed] at called
    exact .inr ⟨called, renewed⟩

section Step

variable (wf : e.WellFormed) (wired : e.Wired) (allowed : e.Allows m) (hw : e.graph.watcher? s = some w)
  (hw' : (e.perform m).graph.watcher? s = some w') (target : w.reaction = .showValue n r)
  (mirrors : Mirrors h k e s w n r)
include wf wired allowed hw hw' target mirrors

omit wf in
theorem mirrors_of_updated (updated : e.updated? m = some s) (outer : k ≤ e.deliveries.length)
    (outer' : k ≤ (e.perform m).deliveries.length) : Mirrors ((e, m) :: h) k (e.perform m) s w' n r := by
  have deaf := not_hearing_of_updated (r := r) updated
  rcases called_cases wired allowed hw hw' target mirrors.takes updated with
    ⟨none, rfl, forest, record⟩ | ⟨called, shows, record⟩
  · have answered := unanswered?_of_quiet (h := h) (n := n) none (taken?_of_deaf deaf)
    have typing := typingAbove?_perform wired allowed hw target (bypasses_of_updated updated)
      (types_of_updated updated) deaf outer outer'
    refine ⟨by rw [forest]; exact mirrors.takes, ?_, ?_, ?_⟩
    · rw [answered]
      exact mirrors.held
    · rw [answered, record]
      exact mirrors.recorded
    · rw [answered, record, forest, typing]
      exact mirrors.shown
  · have answered := unanswered?_of_called (h := h) (n := n) (r := r) called
    refine ⟨Forest.takes_of_shows shows, ?_, fun _ => record, fun _ => ⟨_, shows, .inl ?_⟩⟩
    · rw [answered]
      nofun
    · rw [record]

theorem mirrors_of_typed (typed : m = .input n text) (outer : k' ≤ e.deliveries.length) :
    Mirrors ((e, m) :: h) k' (e.perform m) s w' n r := by
  subst typed
  have others : e.updated? (.input n text) ≠ some s := nofun
  obtain rfl := watcher_eq_of_not_updated wf allowed hw hw' others
  have answered := unanswered?_of_quiet (h := h) (n := n) (invocation?_of_not_updated others)
    (taken?_of_deaf (r := r) (m := .input n text) rfl)
  obtain ⟨typing, shows⟩ := typingAbove?_input text wired hw target mirrors.takes outer
  have record := record_perform wf wired allowed hw target others rfl
  refine ⟨Forest.takes_of_shows shows, ?_, ?_, fun _ => ⟨text, shows, .inr (.inr typing)⟩⟩
  · rw [answered]
    exact mirrors.held
  · rw [answered, record]
    exact mirrors.recorded

theorem mirrors_of_heard (heard : e.hearing? m r = some text)
    (whole : e.graph.hasPath (e.graph.origin w) w.path = true)
    (whole' : (e.perform m).graph.hasPath ((e.perform m).graph.origin w) w.path = true) :
    Mirrors ((e, m) :: h) k (e.perform m) s w' n r := by
  have others : e.updated? m ≠ some s := not_updated_of_hearing heard
  obtain rfl := watcher_eq_of_not_updated wf allowed hw hw' others
  have quiet := invocation?_of_not_updated others
  obtain ⟨typing, cases⟩ := hearing_cases wf wired allowed hw target heard whole whole'
  rcases cases with ⟨same, -, graph⟩ | ⟨differs, -, record, -, forest⟩
  · exact mirrors_of_same quiet (by simp [taken?, hw, heard, same]) graph typing same mirrors
  · exact mirrors_of_taken hw quiet (by simp [taken?, hw, heard, differs]) record forest mirrors.takes

theorem mirrors_of_other (bypass : m.bypasses n = false) (others : e.updated? m ≠ some s)
    (quiet : m.types n = false) (deaf : e.hearing? m r = none)
    (alone : ∀ t ∈ e.graph.fillers (.value n), t = s)
    (alone' : ∀ t ∈ (e.perform m).graph.fillers (.value n), t = s) (outer : k ≤ e.deliveries.length)
    (outer' : k ≤ (e.perform m).deliveries.length) : Mirrors ((e, m) :: h) k (e.perform m) s w' n r := by
  obtain rfl := watcher_eq_of_not_updated wf allowed hw hw' others
  have answered := unanswered?_of_quiet (h := h) (n := n) (invocation?_of_not_updated others)
    (taken?_of_deaf (r := r) deaf)
  have typing := typingAbove?_perform wired allowed hw target bypass quiet deaf outer outer'
  have record := record_perform wf wired allowed hw target others deaf
  obtain ⟨takes, shows⟩ := slot_perform wf allowed hw mirrors.takes bypass quiet others alone alone'
  refine ⟨takes, ?_, ?_, ?_⟩
  · rw [answered]
    exact mirrors.held
  · rw [answered, record]
    exact mirrors.recorded
  · rw [answered, record, shows, typing]
    exact mirrors.shown

theorem mirrors_perform (bypass : m.bypasses n = false) (alone : ∀ t ∈ e.graph.fillers (.value n), t = s)
    (alone' : ∀ t ∈ (e.perform m).graph.fillers (.value n), t = s)
    (whole : e.graph.hasPath (e.graph.origin w) w.path = true)
    (whole' : (e.perform m).graph.hasPath ((e.perform m).graph.origin w) w.path = true)
    (outer : k ≤ e.deliveries.length) (outer' : k ≤ (e.perform m).deliveries.length) :
    Mirrors ((e, m) :: h) k (e.perform m) s w' n r := by
  by_cases updated : e.updated? m = some s
  · exact mirrors_of_updated wired allowed hw hw' target mirrors updated outer outer'
  · cases typed : m.types n with
    | true =>
      cases m with
      | input n' text =>
        simp only [Move.types, decide_eq_true_eq] at typed
        subst typed
        exact mirrors_of_typed wf wired allowed hw hw' target mirrors rfl outer
      | _ => cases typed
    | false =>
      cases heard : e.hearing? m r with
      | some text => exact mirrors_of_heard wf wired allowed hw hw' target mirrors heard whole whole'
      | none =>
        exact mirrors_of_other wf wired allowed hw hw' target mirrors bypass updated typed heard alone alone'
          outer outer'

end Step

theorem mirrors_init {c : CompilerId} (wf : e.WellFormed) (allowed : e.Allows (.init c))
    (new : e.graph.subscribers.size ≤ s.index) (hw : (e.perform (.init c)).graph.watcher? s = some w)
    (target : w.reaction = .showValue n r)
    (alone : ∀ t ∈ (e.perform (.init c)).graph.fillers (.value n), t = s) :
    Mirrors [] 0 (e.perform (.init c)) s w n r := by
  have slot : w.reaction.slot? = some (.value n) := by rw [target]; rfl
  have shows := shown_init wf allowed new hw slot alone (.inl ⟨n, rfl⟩)
  have wires := (Graph.initializes_init (wf.compilers allowed.2.1)).extended.wires
  have record : (e.perform (.init c)).graph.record r = w.value := (wires.wired new hw target).2.1
  refine ⟨Forest.takes_of_shows shows, nofun, fun _ => record, fun _ => ⟨_, shows, .inl ?_⟩⟩
  rw [record]

theorem suffix_perform (allowed : e.Allows m) (others : m ≠ .step) : e.frames <:+ (e.perform m).frames := by
  have waiting : e.turn ≠ .next := by
    intro next
    apply others
    apply allowed.1.2
    rw [step?, next]
    rfl
  obtain ⟨top, frames, -⟩ := stack_perform waiting others
  rw [frames]
  exact List.suffix_append _ _

theorem suffix_within {below : List Frame} (allowed : e.Allows m) (inside : below.length < e.frames.length)
    (suffix : below <:+ e.frames) : below <:+ (e.perform m).frames := by
  by_cases step : m = .step
  · subst step
    have busy : e.frames ≠ [] := by
      intro none
      rw [none] at inside
      exact Nat.not_lt_zero _ inside
    obtain ⟨top, frames, -⟩ := stack_steps (steps_of_allows allowed) busy
    rw [frames]
    refine List.IsSuffix.trans ?_ (List.suffix_append _ _)
    obtain ⟨frame, rest, same⟩ := List.exists_cons_of_ne_nil busy
    rw [same] at suffix inside ⊢
    rcases List.suffix_cons_iff.1 suffix with whole | suffix
    · rw [whole] at inside
      exact absurd inside (Nat.lt_irrefl _)
    · exact suffix
  · exact suffix.trans (suffix_perform allowed step)

theorem length_deliveries {e₁ : Engine} (suffix : e₁.frames <:+ e.frames) :
    e₁.deliveries.length ≤ e.deliveries.length := (suffix.filterMap Frame.delivery?).length_le

end Engine

namespace Run

variable {h₂ h₁ h₀ : History} {e₀ e₁ e : Engine} {m₁ : Move} {c : CompilerId} {s : SubscriberId} {w : Watcher}
  {n : NodeId} {r : RecordId} {text : String}

/-- A history since the initialization of a compiler, in which a model binding of this and typing alone fill the
input value of an element, and the path of the binding leads to a property. -/
structure Bound (h₁ : History) (e₀ : Engine) (c : CompilerId) (h₀ : History) (e : Engine) (s : SubscriberId)
    (w : Watcher) (n : NodeId) (r : RecordId) : Prop where
  run : Run (h₁ ++ (e₀, .init c) :: h₀) e
  made : e₀.makes (.init c) s
  watched : e.graph.watcher? s = some w
  target : w.reaction = .showValue n r
  typed : ∀ x ∈ h₁, x.2.bypasses n = false
  binds : ∀ g ∈ h₁.graphs e, g.Binds s n

namespace Bound

theorem here (bound : Bound h₁ e₀ c h₀ e s w n r) : e.graph.Binds s n :=
  bound.binds _ List.mem_cons_self

theorem whole (bound : Bound h₁ e₀ c h₀ e s w n r) : e.graph.hasPath (e.graph.origin w) w.path = true :=
  bound.here.whole w bound.watched

theorem earlier {m : Move} (bound : Bound ((e₁, m) :: h₁) e₀ c h₀ e s w n r) :
    e₁.Allows m ∧ e = e₁.perform m ∧ ∃ w₁, Bound h₁ e₀ c h₀ e₁ s w₁ n r ∧ w = { w₁ with value := w.value } := by
  obtain ⟨run, made, watched, target, typed, binds⟩ := bound
  cases run with
  | move run allowed =>
    have hs := exists_of_made run made
    obtain ⟨w₁, hw₁, same⟩ := (Engine.changes_perform run.wellFormed allowed).watched_of_lt hs watched
    rw [same] at target
    exact ⟨allowed, rfl, w₁, ⟨run, made, hw₁, target, fun x hx => typed x (List.mem_cons_of_mem _ hx),
      fun g hg => binds g (List.mem_cons_of_mem _ hg)⟩, same⟩

theorem perform {m : Move} {k : Nat} (bound : Bound ((e₁, m) :: h₁) e₀ c h₀ e s w n r)
    (mirrors : ∀ w₁, Bound h₁ e₀ c h₀ e₁ s w₁ n r → Engine.Mirrors h₁ k e₁ s w₁ n r)
    (outer : k ≤ e₁.deliveries.length) (outer' : k ≤ e.deliveries.length) :
    Engine.Mirrors ((e₁, m) :: h₁) k e s w n r := by
  obtain ⟨allowed, rfl, w₁, bound₁, same⟩ := bound.earlier
  have whole := bound.whole
  rw [same] at whole
  exact Engine.mirrors_perform bound₁.run.wellFormed bound₁.run.wired allowed bound₁.watched bound.watched
    bound₁.target (mirrors w₁ bound₁) (bound.typed _ List.mem_cons_self) bound₁.here.alone bound.here.alone
    bound₁.whole whole outer outer'

theorem mirrors (bound : Bound h₁ e₀ c h₀ e s w n r) : Engine.Mirrors h₁ 0 e s w n r := by
  induction h₁ generalizing e w with
  | nil =>
    obtain ⟨run, made, watched, target, -, binds⟩ := bound
    cases run with
    | move run allowed =>
      exact Engine.mirrors_init run.wellFormed allowed (Engine.makes_iff.1 made).1 watched target
        (binds _ List.mem_cons_self).alone
  | cons x h₁ ih => exact bound.perform (fun w₁ bound₁ => ih bound₁) (Nat.zero_le _) (Nat.zero_le _)

end Bound

theorem suffix_of_within {h : History} (run : Run (h₂ ++ (e₁, m₁) :: h) e) (others : m₁ ≠ .step)
    (within : ∀ x ∈ h₂, e₁.frames.length < x.1.frames.length) : e₁.frames <:+ e.frames := by
  obtain ⟨-, allowed₁, after⟩ := run.of_move
  refine after.along (P := fun _ e => e₁.frames <:+ e.frames) run (Engine.suffix_perform allowed₁ others) ?_
  intro h e m part earlier allowed suffix
  exact Engine.suffix_within allowed (within _ (part.subset List.mem_cons_self)) suffix

theorem Bound.suffix (bound : Bound (h₂ ++ (e₁, .input n text) :: h₁) e₀ c h₀ e s w n r)
    (within : ∀ x ∈ h₂, e₁.frames.length < x.1.frames.length) : e₁.frames <:+ e.frames := by
  have run := bound.run
  rw [List.append_assoc] at run
  exact suffix_of_within run nofun within

theorem Bound.mirrors_within (bound : Bound (h₂ ++ (e₁, .input n text) :: h₁) e₀ c h₀ e s w n r)
    (within : ∀ x ∈ h₂, e₁.frames.length < x.1.frames.length) :
    Engine.Mirrors (h₂ ++ (e₁, .input n text) :: h₁) e₁.deliveries.length e s w n r := by
  induction h₂ generalizing e w with
  | nil =>
    obtain ⟨allowed, rfl, w₁, bound₁, same⟩ := bound.earlier
    exact Engine.mirrors_of_typed bound₁.run.wellFormed bound₁.run.wired allowed bound₁.watched bound.watched
      bound₁.target bound₁.mirrors rfl (Nat.le_refl _)
  | cons x h₂ ih =>
    have within₁ : ∀ y ∈ h₂, e₁.frames.length < y.1.frames.length :=
      fun y hy => within y (List.mem_cons_of_mem _ hy)
    obtain ⟨-, -, w₁, bound₁, -⟩ := bound.earlier
    have bound₁ : Bound (h₂ ++ (e₁, .input n text) :: h₁) e₀ c h₀ x.1 s w₁ n r := bound₁
    exact bound.perform (fun w₁ bound₁ => ih bound₁ within₁) (Engine.length_deliveries (bound₁.suffix within₁))
      (Engine.length_deliveries (bound.suffix within))

theorem Bound.holds (bound : Bound h₁ e₀ c h₀ e s w n r) (unique : e.UniqueIdentities) (alive : e.graph.alive s)
    (settled : e.Settled) : e.graph.Holds w := by
  refine bound.run.held_of_settled unique bound.made alive bound.watched ?_ settled
  intro g hg
  obtain ⟨w₀, hw₀, same⟩ := bound.run.watched_since bound.made bound.watched g hg
  have whole := (bound.binds g hg).whole w₀ hw₀
  rw [same]
  exact Graph.missing?_of_hasPath whole

structure Delivered (h₂ : History) (e₁ : Engine) (text : String) (h₁ : History) (e₀ : Engine) (c : CompilerId)
    (h₀ : History) (e : Engine) (s : SubscriberId) (w : Watcher) (n : NodeId) (r : RecordId) : Prop where
  bound : Bound (h₂ ++ (e₁, .input n text) :: h₁) e₀ c h₀ e s w n r
  unique : e.UniqueIdentities
  mem : s ∈ (e.graph.compiler c).watchers
  kept : (e.graph.compiler c).dropped = false
  strict : (e.graph.model w.model).options.changeDetection = .strict
  outside : e₁.Settled
  within : ∀ x ∈ h₂, e₁.frames.length < x.1.frames.length
  returned : e.frames.length ≤ e₁.frames.length

/-- When a typed text has been delivered the input value shows the data, and the record, what the watcher holds and
the data agree, whatever callbacks have written meanwhile. It is not so if a text was taken that the input value
does not show, and the path leads again to what the watcher has held all the time. -/
theorem input_corrected (delivered : Delivered h₂ e₁ text h₁ e₀ c h₀ e s w n r) :
    (e.graph.forest.shows (.value n) = some (e.graph.current w).text ∧
        Value.Agree (e.graph.record r) w.value (e.graph.current w)) ∨
      ∃ e₂ text₂, History.unanswered? s n r (h₂ ++ (e₁, .input n text) :: h₁) = some (e₂, text₂) ∧
        e₂.graph.watcher? s = some w ∧ e₂.displays s n text₂ = false ∧ e.graph.Holds w := by
  obtain ⟨bound, unique, mem, kept, strict, outside, within, returned⟩ := delivered
  have policy : w.policy = .strict := by rw [(bound.run.wellFormed.watchers bound.watched).policy, strict]
  have alive := bound.run.alive_of_compiler kept mem
  have frames : e.frames = e₁.frames := ((bound.suffix within).eq_of_length_le returned).symm
  have settled : e.Settled := by
    rw [Engine.Settled, frames]
    exact outside
  have held := bound.holds unique alive settled
  have mirrors := bound.mirrors_within within
  cases unanswered : History.unanswered? s n r (h₂ ++ (e₁, .input n text) :: h₁) with
  | some x =>
    obtain ⟨watched, hidden⟩ := mirrors.held x unanswered
    exact .inr ⟨x.1, x.2, rfl, watched, hidden, held⟩
  | none =>
    left
    have record := mirrors.recorded unanswered
    apply Engine.agree_of_held policy held record
    obtain ⟨shown, shows, mirrored⟩ := mirrors.shown unanswered
    rw [shows, ← record]
    rcases mirrored with same | same | above
    · rw [same]
    · rw [policy] at same
      rw [Value.strictEq_string.1 same, Value.text]
    · have ended : e.deliveries.length ≤ e₁.deliveries.length :=
        Nat.le_of_eq (congrArg List.length (Engine.deliveries_congr frames))
      rw [Engine.typingAbove?_of_ended ended] at above
      cases above

theorem bound_of_admits (ms : List Move) (run : Run h₀ e₀)
    (admitted : e₀.Allows (.init c) ∧ (e₀.perform (.init c)).admits ms) (made : e₀.makes (.init c) s)
    (found : (((e₀.perform (.init c)).after ms).graph.watcher? s).isSome ∧
      ∀ w ∈ ((e₀.perform (.init c)).after ms).graph.watcher? s, w.reaction = .showValue n r)
    (typed : ∀ x ∈ (e₀.perform (.init c)).trace ms, x.2.bypasses n = false)
    (binds : ∀ g ∈ History.graphs ((e₀.perform (.init c)).trace ms) ((e₀.perform (.init c)).after ms),
      g.Binds s n) :
    ∃ w, Bound ((e₀.perform (.init c)).trace ms) e₀ c h₀ ((e₀.perform (.init c)).after ms) s w n r := by
  obtain ⟨w, hw⟩ := Option.isSome_iff_exists.1 found.1
  have run := run.move admitted.1
  exact ⟨w, run.after ms admitted.2, made, hw, found.2 w hw, typed, binds⟩

def opened : Engine := (page ⟨["o"], "name"⟩).perform (.init ⟨0⟩)

def normalizing (v : Value) (r : Except Error Unit) : List Move :=
  [.step, .resume (.ok ()), .step, .step, .step, .writePath ⟨1⟩ ⟨["o"], "name"⟩ v, .step, .resume (.ok ()), .step,
    .step, .step, .step, .resume r, .step, .step, .step, .step, .step, .step]

def normalized (v : Value) (r : Except Error Unit) : Engine := opened.after (.input ⟨2⟩ "a" :: normalizing v r)

def Normalized (v : Value) (r : Except Error Unit) (w : Watcher) : Prop :=
  Delivered ((opened.perform (.input ⟨2⟩ "a")).trace (normalizing v r)) opened "a" [] (page ⟨["o"], "name"⟩) ⟨0⟩
    (Engine.trace {} (paging ⟨["o"], "name"⟩)) (normalized v r) ⟨1⟩ w ⟨2⟩ ⟨0⟩

theorem delivered_normalized (v : Value) (r : Except Error Unit)
    (admitted : opened.admits (.input ⟨2⟩ "a" :: normalizing v r) = true)
    (found : ((normalized v r).graph.watcher? ⟨1⟩).isSome ∧ ∀ w ∈ (normalized v r).graph.watcher? ⟨1⟩,
      ((normalized v r).graph.model w.model).options.changeDetection = .strict ∧ w.reaction = .showValue ⟨2⟩ ⟨0⟩)
    (typed : ∀ x ∈ opened.trace (.input ⟨2⟩ "a" :: normalizing v r), x.2.bypasses ⟨2⟩ = false)
    (binds : ∀ g ∈ (opened.trace (.input ⟨2⟩ "a" :: normalizing v r)).graphs (normalized v r), g.Binds ⟨1⟩ ⟨2⟩)
    (kept : (normalized v r).UniqueIdentities ∧ ⟨1⟩ ∈ ((normalized v r).graph.compiler ⟨0⟩).watchers ∧
      ((normalized v r).graph.compiler ⟨0⟩).dropped = false)
    (within : ∀ x ∈ (opened.perform (.input ⟨2⟩ "a")).trace (normalizing v r), 0 < x.1.frames.length)
    (returned : (normalized v r).frames.length ≤ 0) : ∃ w, Normalized v r w := by
  have run : Run (Engine.trace {} (paging ⟨["o"], "name"⟩)) (page ⟨["o"], "name"⟩) :=
    Run.of_admits (by decide +kernel)
  obtain ⟨w, bound⟩ := bound_of_admits (.input ⟨2⟩ "a" :: normalizing v r) run
    ⟨by decide +kernel, admitted⟩ (by decide +kernel) ⟨found.1, fun w hw => (found.2 w hw).2⟩ typed binds
  have frames : opened.frames.length = 0 := by decide +kernel
  exact ⟨w, {
    bound := bound
    unique := kept.1
    mem := kept.2.1
    kept := kept.2.2
    strict := (found.2 w bound.watched).1
    outside := by decide +kernel
    within := by rw [frames]; exact within
    returned := by rw [frames]; exact returned }⟩

theorem normalized_input_corrected :
    ∃ w, Normalized (.string "b") (.error .configuration) w ∧
      (normalized (.string "b") (.error .configuration)).graph.current w = .string "b" ∧
      (normalized (.string "b") (.error .configuration)).graph.forest.shows (.value ⟨2⟩) = some "b" := by
  have delivered : ∃ w, Normalized (.string "b") (.error .configuration) w := by
    apply delivered_normalized <;> decide +kernel
  obtain ⟨w, delivered⟩ := delivered
  have current : ∀ w ∈ (normalized (.string "b") (.error .configuration)).graph.watcher? ⟨1⟩,
      (normalized (.string "b") (.error .configuration)).graph.current w = .string "b" := by decide +kernel
  have answered : (History.unanswered? ⟨1⟩ ⟨2⟩ ⟨0⟩ ((opened.perform (.input ⟨2⟩ "a")).trace
      (normalizing (.string "b") (.error .configuration)) ++ [(opened, .input ⟨2⟩ "a")])).isNone = true := by
    decide +kernel
  have current := current w delivered.bound.watched
  refine ⟨w, delivered, current, ?_⟩
  rcases input_corrected delivered with ⟨shows, -⟩ | ⟨e₂, text₂, unanswered, -⟩
  · rw [shows, current, Value.text]
  · rw [unanswered] at answered
    cases answered

/-- The input value goes on showing a text if the data is reset to what the watcher holds, and a record of a NaN does
not equal the data. -/
theorem input_not_corrected :
    (∃ w, Normalized (.string "x") (.ok ()) w ∧
      (normalized (.string "x") (.ok ())).graph.forest.shows (.value ⟨2⟩) ≠
        some ((normalized (.string "x") (.ok ())).graph.current w).text) ∧
    ∃ w, Normalized (.number .nan) (.ok ()) w ∧
      ((normalized (.number .nan) (.ok ())).graph.record ⟨0⟩).strictEq
        ((normalized (.number .nan) (.ok ())).graph.current w) = false := by
  constructor
  · have delivered : ∃ w, Normalized (.string "x") (.ok ()) w := by
      apply delivered_normalized <;> decide +kernel
    have differs : ∀ w ∈ (normalized (.string "x") (.ok ())).graph.watcher? ⟨1⟩,
        (normalized (.string "x") (.ok ())).graph.forest.shows (.value ⟨2⟩) ≠
          some ((normalized (.string "x") (.ok ())).graph.current w).text := by decide +kernel
    obtain ⟨w, delivered⟩ := delivered
    exact ⟨w, delivered, differs w delivered.bound.watched⟩
  · have delivered : ∃ w, Normalized (.number .nan) (.ok ()) w := by
      apply delivered_normalized <;> decide +kernel
    have differs : ∀ w ∈ (normalized (.number .nan) (.ok ())).graph.watcher? ⟨1⟩,
        ((normalized (.number .nan) (.ok ())).graph.record ⟨0⟩).strictEq
          ((normalized (.number .nan) (.ok ())).graph.current w) = false := by decide +kernel
    obtain ⟨w, delivered⟩ := delivered
    exact ⟨w, delivered, differs w delivered.bound.watched⟩

end Run

end DataBinding
