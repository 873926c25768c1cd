import DataBinding.Proofs.EchoedInput
import DataBinding.Proofs.TypedTextDelivery

namespace DataBinding

namespace Value

theorem looseEq_string_comm (a : Value) (t : String) : a.looseEq (.string t) = (string t).looseEq a := by
  cases a <;> simp [looseEq, isNullish, widened, flattened, sameContent, Double.same_comm, eq_comm]

theorem same_string {policy : ChangeDetection} {t u : String} :
    policy.same (.string t) (.string u) = true ↔ t = u := by
  cases policy <;> simp [ChangeDetection.same, strictEq, looseEq, isNullish, widened, flattened, sameContent]

end Value

namespace Engine

variable {h : History} {e : Engine} {m : Move} {s : SubscriberId} {w w' : Watcher} {n : NodeId} {r : RecordId}
  {text : String} {v : Value}

def WritesApart (e : Engine) (m : Move) (s : SubscriberId) (r : RecordId) : Prop :=
  e.hearing? m r = none → ∀ w ∈ e.graph.watcher? s,
    ∀ p ∈ e.graph.reads (e.graph.origin w) w.path, e.written? m = some p → e.Settled

instance (e : Engine) (m : Move) (s : SubscriberId) (r : RecordId) : Decidable (e.WritesApart m s r) :=
  inferInstanceAs (Decidable (e.hearing? m r = none → ∀ w ∈ e.graph.watcher? s,
    ∀ p ∈ e.graph.reads (e.graph.origin w) w.path, e.written? m = some p → e.Settled))

def Recalls (e : Engine) (w : Watcher) (r : RecordId) : Prop :=
  e.graph.record r = w.value ∨ ∃ t, e.graph.record r = .string t ∧
    (e.graph.current w = .string t ∨ w.policy.same (.string t) w.value = true)

/-- The watcher holds the data, or what is the same as the data. The record is what it holds, or a text that is the
same as this. -/
structure Meets (e : Engine) (w : Watcher) (r : RecordId) : Prop where
  holds : e.graph.Holds w
  recorded : e.graph.record r = w.value ∨
    ∃ t, e.graph.record r = .string t ∧ w.policy.same (.string t) w.value = true

theorem Recalls.meets (recalls : e.Recalls w r) (holds : e.graph.Holds w) : e.Meets w r := by
  refine ⟨holds, ?_⟩
  rcases recalls with held | ⟨t, record, current | same⟩
  · exact .inl held
  · rw [Graph.Holds, current] at holds
    rcases holds with found | same
    · exact .inl (record.trans found)
    · exact .inr ⟨t, record, same⟩
  · exact .inr ⟨t, record, same⟩

section Step

variable (wf : e.WellFormed) (wired : e.Wired) (allowed : e.Allows m) (hw : e.graph.watcher? s = some w)
  (hw' : (e.perform m).graph.watcher? s = some w') (target : w.reaction = .showValue n r)
  (takes : e.graph.forest.takes (.value n)) (whole : e.graph.hasPath (e.graph.origin w) w.path = true)
include wf wired allowed hw hw' target takes whole

theorem meets_perform (deaf : e.hearing? m r = none)
    (unwritten : ∀ p ∈ e.graph.reads (e.graph.origin w) w.path, e.written? m ≠ some p) (meets : e.Meets w r) :
    w' = w ∧ (e.perform m).graph.current w = e.graph.current w ∧ (e.perform m).Meets w r := by
  have current := current_perform wf allowed hw whole unwritten
  obtain ⟨holds, recorded⟩ := meets
  have holds' : (e.perform m).graph.Holds w := by rwa [Graph.Holds, current]
  by_cases updated : e.updated? m = some s
  · rcases updated_cases wired allowed hw hw' target takes updated with
      ⟨-, rfl, -, record⟩ | ⟨changed, rfl, -, record⟩
    · exact ⟨rfl, current, holds', by rwa [record]⟩
    · have found : e.graph.current w = w.value := by
        rcases holds with found | same
        · exact found
        · cases changed.symm.trans same
      exact ⟨by rw [found], current, holds', .inl (record.trans found)⟩
  · obtain rfl := watcher_eq_of_not_updated wf allowed hw hw' updated
    exact ⟨rfl, current, holds', by rwa [record_perform wf wired allowed hw target updated deaf]⟩

theorem recalls_perform
    (whole' : (e.perform m).graph.hasPath ((e.perform m).graph.origin w) w.path = true)
    (apart : e.WritesApart m s r) (held : e.Settled → e.graph.Holds w) (recalls : e.Recalls w r) :
    (e.perform m).Recalls w' r := by
  by_cases updated : e.updated? m = some s
  · have current := current_perform wf allowed hw whole fun p _ => by
      rw [written?_of_updated updated]
      nofun
    rcases called_cases wired allowed hw hw' target takes updated with ⟨-, rfl, -, record⟩ | ⟨-, -, record⟩
    · rwa [Recalls, record, current]
    · exact .inl record
  · obtain rfl := watcher_eq_of_not_updated wf allowed hw hw' updated
    cases heard : e.hearing? m r with
    | some text =>
      rcases (hearing_cases wf wired allowed hw target heard whole whole').2 with
        ⟨-, -, graph⟩ | ⟨-, -, record, current, -⟩
      · rwa [Recalls, graph]
      · exact .inr ⟨text, record, .inl current⟩
    | none =>
      have record := record_perform wf wired allowed hw target updated heard
      by_cases written : ∃ p ∈ e.graph.reads (e.graph.origin w) w.path, e.written? m = some p
      · obtain ⟨p, mem, written⟩ := written
        -- what the record is to the watcher does not depend on the data any more
        have meets := recalls.meets (held (apart heard w hw p mem written))
        rcases meets.recorded with kept | ⟨t, recorded, same⟩
        · exact .inl (record.trans kept)
        · exact .inr ⟨t, record.trans recorded, .inr same⟩
      · have current := current_perform wf allowed hw whole fun p mem put => written ⟨p, mem, put⟩
        rwa [Recalls, record, current]

end Step

structure Unmoved (h : History) (e : Engine) (w : Watcher) (r : RecordId) (text : String) (v : Value) : Prop where
  meets : e.Meets w r
  current : e.graph.current w = v
  unwritten : ∀ x ∈ h, (x.1.hearing? x.2 r).isSome → x.1.written? x.2 = none
  same : (∃ x ∈ h, (x.1.hearing? x.2 r).isSome) → w.policy.same (.string text) w.value = true

theorem unmoved_of_deaf (wf : e.WellFormed) (wired : e.Wired) (allowed : e.Allows m)
    (hw : e.graph.watcher? s = some w) (hw' : (e.perform m).graph.watcher? s = some w')
    (target : w.reaction = .showValue n r) (takes : e.graph.forest.takes (.value n))
    (whole : e.graph.hasPath (e.graph.origin w) w.path = true) (leaves : e.LeavesTyped m s n r)
    (deaf : e.hearing? m r = none) (unmoved : Unmoved h e w r text v) :
    Unmoved ((e, m) :: h) (e.perform m) w' r text v := by
  obtain ⟨meets, current, unwritten, same⟩ := unmoved
  obtain ⟨rfl, current', meets'⟩ := meets_perform wf wired allowed hw hw' target takes whole deaf
    (leaves.written deaf w hw) meets
  have earlier {x : Engine × Move} (mem : x ∈ (e, m) :: h) (hears : (x.1.hearing? x.2 r).isSome) : x ∈ h := by
    rcases List.mem_cons.1 mem with rfl | mem
    · rw [deaf] at hears
      cases hears
    · exact mem
  refine ⟨meets', current'.trans current, fun x mem hears => unwritten x (earlier mem hears) hears, ?_⟩
  rintro ⟨x, mem, hears⟩
  exact same ⟨x, earlier mem hears, hears⟩

theorem unmoved_of_heard (wf : e.WellFormed) (wired : e.Wired) (allowed : e.Allows m)
    (hw : e.graph.watcher? s = some w) (hw' : (e.perform m).graph.watcher? s = some w')
    (target : w.reaction = .showValue n r) (whole : e.graph.hasPath (e.graph.origin w) w.path = true)
    (whole' : (e.perform m).graph.hasPath ((e.perform m).graph.origin w) w.path = true)
    (heard : e.hearing? m r = some text) (unmoved : Unmoved h e w r text v) :
    Unmoved ((e, m) :: h) (e.perform m) w' r text v ∨ (e.perform m).graph.current w' = .string text := by
  obtain rfl := watcher_eq_of_not_updated wf allowed hw hw' (not_updated_of_hearing heard)
  obtain ⟨meets, current, unwritten, -⟩ := unmoved
  rcases (hearing_cases wf wired allowed hw target heard whole whole').2 with
    ⟨same, silent, graph⟩ | ⟨-, -, -, current, -⟩
  · left
    refine ⟨?_, by rw [graph, current], ?_, fun _ => ?_⟩
    · exact ⟨by rw [graph]; exact meets.holds, by rw [graph]; exact meets.recorded⟩
    · intro x mem hears
      rcases List.mem_cons.1 mem with rfl | mem
      · exact silent
      · exact unwritten x mem hears
    · rcases meets.recorded with kept | ⟨t, record, known⟩
      · rwa [← kept]
      · rw [record, Value.same_string] at same
        rwa [same]
  · exact .inr current

theorem written_perform (wf : e.WellFormed) (wired : e.Wired) (allowed : e.Allows m)
    (hw : e.graph.watcher? s = some w) (target : w.reaction = .showValue n r)
    (whole : e.graph.hasPath (e.graph.origin w) w.path = true)
    (whole' : (e.perform m).graph.hasPath ((e.perform m).graph.origin w) w.path = true)
    (leaves : e.LeavesTyped m s n r) (hears : ∀ text' ∈ e.hearing? m r, text' = text)
    (written : e.graph.current w = .string text) : (e.perform m).graph.current w = .string text := by
  cases heard : e.hearing? m r with
  | none => rw [current_perform wf allowed hw whole (leaves.written heard w hw), written]
  | some text' =>
    cases hears text' heard
    rcases (hearing_cases wf wired allowed hw target heard whole whole').2 with
      ⟨-, -, graph⟩ | ⟨-, -, -, current, -⟩
    · rw [graph, written]
    · exact current

end Engine

namespace Run

variable {h₂ h₁ h₀ : History} {e₀ e₁ e : Engine} {c : CompilerId} {s : SubscriberId} {w : Watcher} {n : NodeId}
  {r : RecordId} {text : String}

theorem Bound.recalls (bound : Bound h₁ e₀ c h₀ e s w n r) (unique : e.UniqueIdentities) (alive : e.graph.alive s)
    (apart : ∀ x ∈ h₁, x.1.WritesApart x.2 s r) : e.Recalls w r := by
  induction h₁ generalizing e w with
  | nil =>
    obtain ⟨run, made, watched, target, -, -⟩ := bound
    cases run with
    | move run allowed =>
      have wires := (Graph.initializes_init (run.wellFormed.compilers allowed.2.1)).extended.wires
      exact .inl (wires.wired (Engine.makes_iff.1 made).1 watched target).2.1
  | cons x h₁ ih =>
    obtain ⟨allowed, rfl, w₁, bound₁, same⟩ := bound.earlier
    have bound₁ : Bound h₁ e₀ c h₀ x.1 s w₁ n r := bound₁
    have wf := bound₁.run.wellFormed
    have unique₁ := unique.earlier wf allowed
    have alive₁ := (Engine.changes_perform wf allowed).alive (Graph.exists_of_watcher? bound₁.watched) alive
    have whole := bound.whole
    rw [same] at whole
    have recalls := ih bound₁ unique₁ alive₁ fun y mem => apart y (List.mem_cons_of_mem _ mem)
    exact Engine.recalls_perform wf bound₁.run.wired allowed bound₁.watched bound.watched bound₁.target
      bound₁.mirrors.takes bound₁.whole whole (apart _ List.mem_cons_self)
      (fun settled => bound₁.holds unique₁ alive₁ settled) recalls

theorem Bound.typing (bound : Bound (h₂ ++ (e₁, .input n text) :: h₁) e₀ c h₀ e s w n r)
    (within : ∀ x ∈ h₂, e₁.frames.length < x.1.frames.length) (leaves : ∀ x ∈ h₂, x.1.LeavesTyped x.2 s n r) :
    ∃ w₁, Bound h₁ e₀ c h₀ e₁ s w₁ n r ∧ w = { w₁ with value := w.value } ∧
      Typed h₂ e₁ text (h₁ ++ (e₀, .init c) :: h₀) e s w₁ n r := by
  obtain ⟨w₁, bound₁, same⟩ := bound.input
  refine ⟨w₁, bound₁, same, ?_, bound₁.watched, bound₁.target, within, fun x mem => ?_⟩
  · have run := bound.run
    rwa [List.append_assoc, List.cons_append] at run
  · exact ⟨bound.typed x (List.mem_append_left _ mem), (leaves x mem).typed⟩

theorem Bound.unmoved (bound : Bound (h₂ ++ (e₁, .input n text) :: h₁) e₀ c h₀ e s w n r)
    (meets : ∀ w₁ ∈ e₁.graph.watcher? s, e₁.Meets w₁ r)
    (within : ∀ x ∈ h₂, e₁.frames.length < x.1.frames.length) (leaves : ∀ x ∈ h₂, x.1.LeavesTyped x.2 s n r) :
    Engine.Unmoved h₂ e w r text (e₁.graph.current w) ∨ e.graph.current w = .string text := by
  induction h₂ generalizing e w with
  | nil =>
    left
    obtain ⟨allowed, rfl, w₁, bound₁, -⟩ := bound.earlier
    obtain ⟨rfl, current, kept⟩ := Engine.meets_perform bound₁.run.wellFormed bound₁.run.wired allowed
      bound₁.watched bound.watched bound₁.target bound₁.mirrors.takes bound₁.whole rfl (fun _ _ => nofun)
      (meets w₁ bound₁.watched)
    exact ⟨kept, current, List.forall_mem_nil _, fun ⟨_, mem, _⟩ => absurd mem List.not_mem_nil⟩
  | cons x h₂ ih =>
    obtain ⟨allowed, rfl, w₁, bound₁, same⟩ := bound.earlier
    have bound₁ : Bound (h₂ ++ (e₁, .input n text) :: h₁) e₀ c h₀ x.1 s w₁ n r := bound₁
    have wf := bound₁.run.wellFormed
    have wired := bound₁.run.wired
    have whole := bound.whole
    have within₁ : ∀ y ∈ h₂, e₁.frames.length < y.1.frames.length :=
      fun y mem => within y (List.mem_cons_of_mem _ mem)
    have leaves₁ : ∀ y ∈ h₂, y.1.LeavesTyped y.2 s n r := fun y mem => leaves y (List.mem_cons_of_mem _ mem)
    obtain ⟨_, -, -, typed⟩ := bound₁.typing within₁ leaves₁
    have hears : ∀ text' ∈ x.1.hearing? x.2 r, text' = text :=
      fun text' heard => (typed.hears (within _ List.mem_cons_self) heard).1
    have current (g : Graph) : g.current w = g.current w₁ := by rw [same]; rfl
    rw [same] at whole
    rw [current, current]
    rcases ih bound₁ within₁ leaves₁ with unmoved | written
    · cases heard : x.1.hearing? x.2 r with
      | none =>
        exact .inl (Engine.unmoved_of_deaf wf wired allowed bound₁.watched bound.watched bound₁.target
          bound₁.mirrors.takes bound₁.whole (leaves _ List.mem_cons_self) heard unmoved)
      | some text' =>
        cases hears text' heard
        rw [← current (x.1.perform x.2).graph]
        exact Engine.unmoved_of_heard wf wired allowed bound₁.watched bound.watched bound₁.target bound₁.whole whole
          heard unmoved
    · exact .inr (Engine.written_perform wf wired allowed bound₁.watched bound₁.target bound₁.whole whole
        (leaves _ List.mem_cons_self) hears written)

/-- A text was typed outside of notifications into the element of a model binding that is alive, under the loose policy,
and has been delivered. Others have written to the path outside of notifications only, and nobody has since. -/
structure Coerced (h₂ : History) (e₁ : Engine) (text : String) (h₁ : History) (e₀ : Engine) (c : CompilerId)
    (h₀ : History) (e : Engine) (s : SubscriberId) (w : Watcher) (n : NodeId) (r : RecordId) : Prop where
  bound : Bound (h₂ ++ (e₁, .input n text) :: h₁) e₀ c h₀ e s w n r
  unique : e.UniqueIdentities
  mem : s ∈ (e.graph.compiler c).watchers
  kept : (e.graph.compiler c).dropped = false
  loose : (e.graph.model w.model).options.changeDetection = .loose
  apart : ∀ x ∈ h₁, x.1.WritesApart x.2 s r
  outside : e₁.Settled
  within : ∀ x ∈ h₂, e₁.frames.length < x.1.frames.length
  leaves : ∀ x ∈ h₂, x.1.LeavesTyped x.2 s n r
  returned : e.frames.length ≤ e₁.frames.length

/-- When a typed text has been delivered the data is the same as the text, unless the listener has written nothing and
both are the same as what the watcher of the binding holds. -/
theorem input_coerced (coerced : Coerced h₂ e₁ text h₁ e₀ c h₀ e s w n r) :
    (e.graph.current w).looseEq (.string text) = true ∨
      ((∀ x ∈ h₂, (x.1.hearing? x.2 r).isSome → x.1.written? x.2 = none) ∧
        e.graph.current w = e₁.graph.current w ∧
        (Value.string text).looseEq w.value = true ∧ (e.graph.current w).looseEq w.value = true) := by
  obtain ⟨bound, unique, mem, kept, loose, apart, outside, within, leaves, returned⟩ := coerced
  have policy : w.policy = .loose := by rw [(bound.run.wellFormed.watchers bound.watched).policy, loose]
  obtain ⟨w₁, bound₁, -, typed⟩ := bound.typing within leaves
  have run : Run ((h₂ ++ [(e₁, .input n text)]) ++ (h₁ ++ (e₀, .init c) :: h₀)) e := by
    rw [List.append_assoc]
    exact typed.run
  have unique₁ := bound₁.run.unique_since run unique
  have alive₁ : e₁.graph.alive s :=
    (bound₁.run.alive_since run).2 s (Graph.exists_of_watcher? bound₁.watched) (bound.run.alive_of_compiler kept mem)
  have meets := (bound₁.recalls unique₁ alive₁ apart).meets (bound₁.holds unique₁ alive₁ outside)
  have meets : ∀ w₁ ∈ e₁.graph.watcher? s, e₁.Meets w₁ r := by
    intro w₂ hw₂
    cases bound₁.watched.symm.trans hw₂
    exact meets
  rcases bound.unmoved meets within leaves with ⟨kept, current, unwritten, same⟩ | written
  · obtain ⟨⟨x, mem, heard⟩, -⟩ := typed.heard returned
    have same := same ⟨x, mem, by rw [heard]; rfl⟩
    have holds := kept.holds
    rw [Graph.Holds] at holds
    rw [policy] at same holds
    change (Value.string text).looseEq w.value = true at same
    rcases holds with found | close
    · left
      rw [found, Value.looseEq_string_comm, same]
    · exact .inr ⟨unwritten, current, same, close⟩
  · left
    have itself : ChangeDetection.loose.same (.string text) (.string text) = true := Value.same_string.2 rfl
    rw [written]
    exact itself

def mistaking (v u : Value) (text : String) (steps : Nat) : List Move :=
  (filling v ++ filling u) ++ .input ⟨2⟩ text :: List.replicate steps .step

def refilled (v u : Value) : Engine := (primed .loose).after (filling v ++ filling u)

def mistaken (v u : Value) (text : String) (steps : Nat) : Engine := (primed .loose).after (mistaking v u text steps)

def Mistaken (v u : Value) (text : String) (steps : Nat) (w : Watcher) : Prop :=
  Coerced (((refilled v u).perform (.input ⟨2⟩ text)).trace (List.replicate steps .step)) (refilled v u) text
    ((primed .loose).trace (filling v ++ filling u)) (formed .loose) ⟨0⟩ (Engine.trace {} (forming .loose))
    (mistaken v u text steps) ⟨0⟩ w ⟨2⟩ ⟨0⟩

theorem mistaken_of_admits (v u : Value) (text : String) (steps : Nat)
    (admitted : (primed .loose).admits (mistaking v u text steps))
    (found : ((mistaken v u text steps).graph.watcher? ⟨0⟩).isSome ∧
      ∀ w ∈ (mistaken v u text steps).graph.watcher? ⟨0⟩, w.reaction = .showValue ⟨2⟩ ⟨0⟩ ∧
        ((mistaken v u text steps).graph.model w.model).options.changeDetection = .loose)
    (typed : ∀ x ∈ (primed .loose).trace (mistaking v u text steps), x.2.bypasses ⟨2⟩ = false)
    (binds : ∀ g ∈ ((primed .loose).trace (mistaking v u text steps)).graphs (mistaken v u text steps), g.Binds ⟨0⟩ ⟨2⟩)
    (kept : (mistaken v u text steps).UniqueIdentities ∧ ⟨0⟩ ∈ ((mistaken v u text steps).graph.compiler ⟨0⟩).watchers ∧
      ((mistaken v u text steps).graph.compiler ⟨0⟩).dropped = false)
    (apart : ∀ x ∈ (primed .loose).trace (filling v ++ filling u), x.1.WritesApart x.2 ⟨0⟩ ⟨0⟩)
    (course : (refilled v u).Settled ∧
      (∀ x ∈ ((refilled v u).perform (.input ⟨2⟩ text)).trace (List.replicate steps .step),
        (refilled v u).frames.length < x.1.frames.length ∧ x.1.LeavesTyped x.2 ⟨0⟩ ⟨2⟩ ⟨0⟩) ∧
      (mistaken v u text steps).frames.length ≤ (refilled v u).frames.length) :
    ∃ w, Mistaken v u text steps w := by
  have run : Run (Engine.trace {} (forming .loose)) (formed .loose) := Run.of_admits (by decide +kernel)
  obtain ⟨w, bound⟩ := bound_of_admits (mistaking v u text steps) run ⟨by decide +kernel, admitted⟩ (by decide +kernel)
    ⟨found.1, fun w hw => (found.2 w hw).1⟩ typed binds
  have loose := (found.2 w bound.watched).2
  rw [mistaking, trace_append] at bound
  exact ⟨w, {
    bound := bound
    unique := kept.1
    mem := kept.2.1
    kept := kept.2.2
    loose := loose
    apart := apart
    outside := course.1
    within := fun x mem => (course.2.1 x mem).1
    leaves := fun x mem => (course.2.1 x mem).2
    returned := course.2.2 }⟩

theorem mistaken_input_coerced :
    ∃ w, Mistaken (.number .one) (.string "1.0") "2" 6 w ∧
      ((mistaken (.number .one) (.string "1.0") "2" 6).graph.current w).looseEq (.string "2") = true := by
  have coerced : ∃ w, Mistaken (.number .one) (.string "1.0") "2" 6 w := by
    apply mistaken_of_admits <;> decide +kernel
  obtain ⟨w, coerced⟩ := coerced
  have moved : ∀ w ∈ (mistaken (.number .one) (.string "1.0") "2" 6).graph.watcher? ⟨0⟩,
      (mistaken (.number .one) (.string "1.0") "2" 6).graph.current w ≠
        (refilled (.number .one) (.string "1.0")).graph.current w := by decide +kernel
  refine ⟨w, coerced, ?_⟩
  rcases input_coerced coerced with same | ⟨-, stays, -⟩
  · exact same
  · exact absurd stays (moved w coerced.bound.watched)

/-- A text and another text for the same number are not the same, so the data can be left with the other one. -/
theorem input_lost :
    ∃ w, Mistaken (.number .one) (.string "1.0") "1" 3 w ∧
      ((mistaken (.number .one) (.string "1.0") "1" 3).graph.current w).looseEq (.string "1") = false := by
  have coerced : ∃ w, Mistaken (.number .one) (.string "1.0") "1" 3 w := by
    apply mistaken_of_admits <;> decide +kernel
  have differs : ∀ w ∈ (mistaken (.number .one) (.string "1.0") "1" 3).graph.watcher? ⟨0⟩,
      ((mistaken (.number .one) (.string "1.0") "1" 3).graph.current w).looseEq (.string "1") = false := by
    decide +kernel
  obtain ⟨w, coerced⟩ := coerced
  exact ⟨w, coerced, differs w coerced.bound.watched⟩

end Run

end DataBinding
