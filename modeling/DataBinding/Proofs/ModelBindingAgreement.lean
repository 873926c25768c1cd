import DataBinding.Proofs.TypedTexts

namespace DataBinding

/-- The copies of a value equal each other, or they are one value that does not even equal itself. -/
def Value.Agree (a b c : Value) : Prop :=
  (a.strictEq b = true ∧ b.strictEq c = true ∧ a.strictEq c = true) ∨ (a = b ∧ b = c ∧ a.strictEq a = false)

namespace Engine

/-- What a model binding asks of a move. Only typing sets the input value. While the record is not what the
watcher holds, nobody else brings that back to the path. And where the listener is to write what the watcher
holds, the input value shows it. -/
structure Tolerates (e : Engine) (m : Move) (s : SubscriberId) (n : NodeId) (r : RecordId) : Prop where
  typed : m.bypasses n = false
  written : e.hearing? m r = none → ∀ w ∈ e.graph.watcher? s,
    ∀ p ∈ e.graph.reads (e.graph.origin w) w.path, e.written? m = some p →
      e.graph.record r ≠ w.value → ¬ (e.perform m).graph.Holds w
  heard : ∀ text ∈ e.hearing? m r, e.graph.record r ≠ .string text →
    ∀ w ∈ e.graph.watcher? s, w.value = .string text → e.graph.forest.shows (.value n) = some text

instance (e : Engine) (m : Move) (s : SubscriberId) (n : NodeId) (r : RecordId) :
    Decidable (e.Tolerates m s n r) :=
  decidable_of_iff (m.bypasses n = false ∧
      (e.hearing? m r = none → ∀ w ∈ e.graph.watcher? s,
        ∀ p ∈ e.graph.reads (e.graph.origin w) w.path, e.written? m = some p →
          e.graph.record r ≠ w.value → ¬ (e.perform m).graph.Holds w) ∧
      ∀ text ∈ e.hearing? m r, e.graph.record r ≠ .string text →
        ∀ w ∈ e.graph.watcher? s, w.value = .string text → e.graph.forest.shows (.value n) = some text)
    ⟨fun ⟨typed, written, heard⟩ => ⟨typed, written, heard⟩, fun h => ⟨h.typed, h.written, h.heard⟩⟩

variable {e : Engine} {m : Move} {s : SubscriberId} {w w' : Watcher} {n : NodeId} {r : RecordId}
  {text : String}

/-- Once the record is not what the watcher holds, the watcher would find something new. Until then the input
value shows the record, or the text typed last that has yet to be heard. -/
structure Follows (e : Engine) (w : Watcher) (n : NodeId) (r : RecordId) : Prop where
  takes : e.graph.forest.takes (.value n)
  recorded : e.graph.record r ≠ w.value → ¬ e.graph.Holds w
  shown : e.graph.record r = w.value → e.graph.forest.shows (.value n) = some (e.graph.record r).text ∨
    ∃ text, e.typing? r = some text ∧ e.graph.forest.shows (.value n) = some text

theorem not_hearing_of_updated (h : e.updated? m = some s) : e.hearing? m r = none := by
  rw [hearing?, heard?_of_updated h]
  rfl

theorem bypasses_of_updated (h : e.updated? m = some s) : m.bypasses n = false := by
  cases m <;> first | rfl | cases h

theorem types_of_updated (h : e.updated? m = some s) : m.types n = false := by
  cases m <;> first | rfl | cases h

theorem not_updated_of_hearing (heard : e.hearing? m r = some text) : e.updated? m ≠ some s := by
  intro updated
  rw [not_hearing_of_updated updated] at heard
  cases heard

theorem written?_of_updated (h : e.updated? m = some s) : e.written? m = none := by
  have heard := heard?_of_updated h
  obtain ⟨g, frames, turn⟩ := e
  cases m with
  | step =>
    simp only [heard?] at heard
    simp only [written?]
    split
    · simp at heard
    · rfl
  | run _ => rfl
  | _ => cases h

theorem noted?_ne (wired : e.Wired) (hw : e.graph.watcher? s = some w) (target : w.reaction = .showValue n r)
    (others : e.updated? m ≠ some s) (deaf : e.hearing? m r = none) : e.noted? m ≠ some r := by
  intro noted
  rcases Option.or_eq_some_iff.1 noted with noted | ⟨-, noted⟩
  · obtain ⟨w', watched, record⟩ := Option.bind_eq_some_iff.1 noted
    obtain ⟨t, updated, hw'⟩ := Option.bind_eq_some_iff.1 watched
    cases hr : w'.reaction with
    | showValue n' r' =>
      rw [hr] at record
      cases record
      rw [wired.apart hw' hw hr target] at updated
      exact others updated
    | _ => rw [hr] at record; cases record
  · obtain ⟨⟨n', event, listener⟩, heard, record⟩ := Option.bind_eq_some_iff.1 noted
    obtain ⟨text, htext, knows⟩ := Option.bind_eq_some_iff.1 record
    rw [hearing?, heard, Option.bind_some] at deaf
    dsimp only at deaf htext knows
    rw [if_pos knows, htext] at deaf
    cases deaf

theorem record_perform (wf : e.WellFormed) (wired : e.Wired) (allowed : e.Allows m)
    (hw : e.graph.watcher? s = some w) (target : w.reaction = .showValue n r) (others : e.updated? m ≠ some s)
    (deaf : e.hearing? m r = none) : (e.perform m).graph.record r = e.graph.record r := by
  by_cases started : ∃ c, m = .init c
  · obtain ⟨c, rfl⟩ := started
    have wires := (Graph.initializes_init (wf.compilers allowed.2.1)).extended.wires
    exact wires.record (wired.recorded hw target)
  · have leaves := leaves_perform allowed fun c h => started ⟨c, h⟩
    exact leaves.record (noted?_ne wired hw target others deaf)

theorem recorded_of_updated (wired : e.Wired) (allowed : e.Allows m) (hw : e.graph.watcher? s = some w)
    (target : w.reaction = .showValue n r) (takes : e.graph.forest.takes (.value n))
    (updated : e.updated? m = some s) :
    (w.policy.same (e.graph.current w) w.value = true ∧ (e.perform m).graph.forest = e.graph.forest ∧
        (e.perform m).graph.record r = e.graph.record r) ∨
      (w.policy.same (e.graph.current w) w.value = false ∧
        (e.perform m).graph.forest.shows (.value n) = some (e.graph.current w).text ∧
        (e.perform m).graph.record r = e.graph.current w) := by
  have slot : w.reaction.slot? = some (.value n) := by rw [target]; rfl
  rcases filled_of_updated allowed updated hw slot takes with ⟨same, forest, records⟩
    | ⟨changed, shows, records⟩
  · exact .inl ⟨same, forest, by rw [Graph.record, records, Graph.record]⟩
  · refine .inr ⟨changed, shows, ?_⟩
    rw [target] at records
    rw [Graph.record, records, Graph.noted, ← Graph.record, Graph.record_setRecord,
      if_pos ⟨rfl, wired.recorded hw target⟩]

theorem updated_cases (wired : e.Wired) (allowed : e.Allows m) (hw : e.graph.watcher? s = some w)
    (hw' : (e.perform m).graph.watcher? s = some w') (target : w.reaction = .showValue n r)
    (takes : e.graph.forest.takes (.value n)) (updated : e.updated? m = some s) :
    (w.policy.same (e.graph.current w) w.value = true ∧ w' = w ∧ (e.perform m).graph.forest = e.graph.forest ∧
        (e.perform m).graph.record r = e.graph.record r) ∨
      (w.policy.same (e.graph.current w) w.value = false ∧ w' = { w with value := e.graph.current w } ∧
        (e.perform m).graph.forest.shows (.value n) = some (e.graph.current w).text ∧
        (e.perform m).graph.record r = e.graph.current w) := by
  have watched := watcher?_of_updated allowed updated hw
  rw [hw'] at watched
  rcases recorded_of_updated wired allowed hw target takes updated with ⟨same, kept⟩ | ⟨changed, renewed⟩
  · simp only [same, true_and, Bool.true_eq_false, false_and, or_false, Option.some.injEq] at watched
    exact .inl ⟨same, watched, kept⟩
  · simp only [changed, true_and, Bool.false_eq_true, false_and, false_or, Option.some.injEq] at watched
    exact .inr ⟨changed, watched, renewed⟩

theorem slot_perform (wf : e.WellFormed) (allowed : e.Allows m) (hw : e.graph.watcher? s = some w)
    (takes : e.graph.forest.takes (.value n)) (bypass : m.bypasses n = false) (quiet : m.types n = false)
    (others : e.updated? m ≠ some s) (alone : ∀ t ∈ e.graph.fillers (.value n), t = s)
    (alone' : ∀ t ∈ (e.perform m).graph.fillers (.value n), t = s) :
    (e.perform m).graph.forest.takes (.value n) = true ∧
      (e.perform m).graph.forest.shows (.value n) = e.graph.forest.shows (.value n) := by
  have edited : m.edited? ≠ some (.value n) := by
    intro edited
    cases m with
    | edit change =>
      cases change with
      | setValue n' value =>
        cases edited
        simp [Move.bypasses] at bypass
      | _ => cases edited
    | input n' text =>
      cases edited
      simp [Move.types] at quiet
    | _ => cases edited
  by_cases started : ∃ c, m = .init c
  · obtain ⟨c, rfl⟩ := started
    have same := shows_init wf allowed (Graph.exists_of_watcher? hw) alone' (.inl ⟨n, rfl⟩)
    obtain ⟨text, shows⟩ := Option.ne_none_iff_exists'.1 (Forest.shows_of_takes_value takes)
    exact ⟨Forest.takes_of_shows (same.trans shows), same⟩
  · have leaves := leaves_perform allowed fun c h => started ⟨c, h⟩
    have there := Forest.exists_of_takes takes
    refine ⟨(leaves.takes there).trans takes, ?_⟩
    exact leaves.shows (filled?_of_alone allowed alone edited others) there

section Step

variable (wf : e.WellFormed) (wired : e.Wired) (allowed : e.Allows m) (hw : e.graph.watcher? s = some w)
  (hw' : (e.perform m).graph.watcher? s = some w') (target : w.reaction = .showValue n r)
  (follows : e.Follows w n r)
include wf wired allowed hw hw' target follows

theorem follows_of_updated (whole : e.graph.hasPath (e.graph.origin w) w.path = true)
    (updated : e.updated? m = some s) : (e.perform m).Follows w' n r := by
  have current := current_perform wf allowed hw whole fun p _ => by
    rw [written?_of_updated updated]
    nofun
  have typing : (e.perform m).typing? r = e.typing? r :=
    typing?_perform wired allowed hw target (bypasses_of_updated updated) (types_of_updated updated)
      (not_hearing_of_updated updated)
  rcases updated_cases wired allowed hw hw' target follows.takes updated with
    ⟨-, rfl, forest, record⟩ | ⟨-, rfl, shows, record⟩
  · refine ⟨by rw [forest]; exact follows.takes, ?_, ?_⟩
    · rw [record, Graph.Holds, current]
      exact follows.recorded
    · rw [record, typing, forest]
      exact follows.shown
  · refine ⟨Forest.takes_of_shows shows, fun differs => absurd record differs, fun _ => .inl ?_⟩
    rw [record]
    exact shows

theorem follows_of_typed (typed : m = .input n text)
    (whole : e.graph.hasPath (e.graph.origin w) w.path = true) : (e.perform m).Follows w' n r := by
  subst typed
  have others : e.updated? (.input n text) ≠ some s := nofun
  obtain rfl := watcher_eq_of_not_updated wf allowed hw hw' others
  obtain ⟨typing, shows⟩ := typing?_input text wired hw target follows.takes
  have current := current_perform wf allowed hw whole fun _ _ => nofun
  have record := record_perform wf wired allowed hw target others rfl
  refine ⟨Forest.takes_of_shows shows, ?_, fun _ => .inr ⟨text, typing, shows⟩⟩
  rw [record, Graph.Holds, current]
  exact follows.recorded

theorem follows_of_heard (strict : w.policy = .strict) (tolerates : e.Tolerates m s n r)
    (heard : e.hearing? m r = some text) (whole : e.graph.hasPath (e.graph.origin w) w.path = true)
    (whole' : (e.perform m).graph.hasPath ((e.perform m).graph.origin w) w.path = true) :
    (e.perform m).Follows w' n r := by
  have others : e.updated? m ≠ some s := not_updated_of_hearing heard
  obtain rfl := watcher_eq_of_not_updated wf allowed hw hw' others
  obtain ⟨typing, same⟩ := heard_cases wf wired allowed hw target strict heard whole whole'
  rcases same with ⟨same, graph⟩ | ⟨new, record, current, forest⟩
  · refine ⟨by rw [graph]; exact follows.takes, by rw [graph]; exact follows.recorded, ?_⟩
    rw [graph]
    intro held
    left
    rcases follows.shown held with shown | ⟨text', typing', shown⟩
    · exact shown
    · cases typing.symm.trans typing'
      rw [shown, same]
      rfl
  · refine ⟨by rw [forest]; exact follows.takes, ?_, ?_⟩
    · rw [record, Graph.Holds, current, strict]
      rintro differs (held | held)
      · exact differs held
      · exact differs (Value.strictEq_string.1 held).symm
    · rw [record, forest]
      intro held
      exact .inl (tolerates.heard text heard new w hw held.symm)

theorem follows_of_other (tolerates : e.Tolerates m s n r) (others : e.updated? m ≠ some s)
    (quiet : m.types n = false) (deaf : e.hearing? m r = none)
    (alone : ∀ t ∈ e.graph.fillers (.value n), t = s)
    (alone' : ∀ t ∈ (e.perform m).graph.fillers (.value n), t = s)
    (whole : e.graph.hasPath (e.graph.origin w) w.path = true) : (e.perform m).Follows w' n r := by
  obtain rfl := watcher_eq_of_not_updated wf allowed hw hw' others
  have typing := typing?_perform wired allowed hw target tolerates.typed quiet deaf
  have record := record_perform wf wired allowed hw target others deaf
  obtain ⟨takes, shows⟩ :=
    slot_perform wf allowed hw follows.takes tolerates.typed quiet others alone alone'
  refine ⟨takes, ?_, ?_⟩
  · rw [record]
    intro differs
    by_cases foreign : ∃ p ∈ e.graph.reads (e.graph.origin w) w.path, e.written? m = some p
    · obtain ⟨p, hp, written⟩ := foreign
      exact tolerates.written deaf w hw p hp written differs
    · rw [Graph.Holds, current_perform wf allowed hw whole fun p hp written => foreign ⟨p, hp, written⟩]
      exact follows.recorded differs
  · rw [record, shows, typing]
    exact follows.shown

theorem follows_perform (strict : w.policy = .strict) (tolerates : e.Tolerates m s n r)
    (alone : ∀ t ∈ e.graph.fillers (.value n), t = s)
    (alone' : ∀ t ∈ (e.perform m).graph.fillers (.value n), t = s)
    (whole : e.graph.hasPath (e.graph.origin w) w.path = true)
    (whole' : (e.perform m).graph.hasPath ((e.perform m).graph.origin w) w.path = true) :
    (e.perform m).Follows w' n r := by
  by_cases updated : e.updated? m = some s
  · exact follows_of_updated wf wired allowed hw hw' target follows whole updated
  · cases typed : m.types n with
    | true =>
      cases m with
      | input n' text =>
        simp only [Move.types, decide_eq_true_eq] at typed
        subst typed
        exact follows_of_typed wf wired allowed hw hw' target follows rfl whole
      | _ => cases typed
    | false =>
      cases heard : e.hearing? m r with
      | some text =>
        exact follows_of_heard wf wired allowed hw hw' target follows strict tolerates heard whole whole'
      | none =>
        exact follows_of_other wf wired allowed hw hw' target follows tolerates updated typed heard alone
          alone' whole

end Step

theorem follows_init {c : CompilerId} (wf : e.WellFormed) (allowed : e.Allows (.init c))
    (new : e.graph.subscribers.size ≤ s.index) (hw : (e.perform (.init c)).graph.watcher? s = some w)
    (target : w.reaction = .showValue n r)
    (alone : ∀ t ∈ (e.perform (.init c)).graph.fillers (.value n), t = s) :
    (e.perform (.init c)).Follows w n r := by
  have slot : w.reaction.slot? = some (.value n) := by rw [target]; rfl
  have shows := shown_init wf allowed new hw slot alone (.inl ⟨n, rfl⟩)
  have wires := (Graph.initializes_init (wf.compilers allowed.2.1)).extended.wires
  have record : (e.perform (.init c)).graph.record r = w.value := (wires.wired new hw target).2.1
  refine ⟨Forest.takes_of_shows shows, fun differs => absurd record differs, fun _ => .inl ?_⟩
  rw [record]
  exact shows

structure Idle (e : Engine) : Prop where
  settled : e.Settled
  delivered : e.deliveries = []

instance (e : Engine) : Decidable e.Idle :=
  decidable_of_iff (e.Settled ∧ e.deliveries.isEmpty = true)
    ⟨fun ⟨settled, delivered⟩ => ⟨settled, List.isEmpty_iff.1 delivered⟩,
      fun h => ⟨h.settled, List.isEmpty_iff.2 h.delivered⟩⟩

theorem agree_of_held (strict : w.policy = .strict) (held : e.graph.Holds w) (record : e.graph.record r = w.value)
    (shows : e.graph.forest.shows (.value n) = some w.value.text) :
    e.graph.forest.shows (.value n) = some (e.graph.current w).text ∧
      Value.Agree (e.graph.record r) w.value (e.graph.current w) := by
  rw [record, shows]
  rw [Graph.Holds, strict] at held
  rcases held with same | same
  · rw [same]
    refine ⟨rfl, ?_⟩
    cases self : w.value.strictEq w.value with
    | true => exact .inl ⟨self, self, self⟩
    | false => exact .inr ⟨rfl, rfl, self⟩
  · have same' := Value.strictEq_symm same
    exact ⟨by rw [Value.text_of_strictEq same], .inl ⟨Value.strictEq_trans same' same, same', same'⟩⟩

theorem Follows.agree (follows : e.Follows w n r) (strict : w.policy = .strict)
    (delivered : e.typing? r = none) (held : e.graph.Holds w) :
    e.graph.forest.shows (.value n) = some (e.graph.current w).text ∧
      Value.Agree (e.graph.record r) w.value (e.graph.current w) := by
  have record : e.graph.record r = w.value :=
    Decidable.byContradiction fun differs => follows.recorded differs held
  apply agree_of_held strict held record
  rcases follows.shown record with shown | ⟨text, typing, -⟩
  · rw [shown, record]
  · rw [delivered] at typing
    cases typing

structure LeavesTyped (e : Engine) (m : Move) (s : SubscriberId) (n : NodeId) (r : RecordId) : Prop where
  typed : m.types n = false
  written : e.hearing? m r = none → ∀ w ∈ e.graph.watcher? s,
    ∀ p ∈ e.graph.reads (e.graph.origin w) w.path, e.written? m ≠ some p

instance (e : Engine) (m : Move) (s : SubscriberId) (n : NodeId) (r : RecordId) :
    Decidable (e.LeavesTyped m s n r) :=
  decidable_of_iff (m.types n = false ∧ (e.hearing? m r = none → ∀ w ∈ e.graph.watcher? s,
      ∀ p ∈ e.graph.reads (e.graph.origin w) w.path, e.written? m ≠ some p))
    ⟨fun ⟨typed, written⟩ => ⟨typed, written⟩, fun h => ⟨h.typed, h.written⟩⟩

/-- No other text is on its way, and this one has arrived at the path or is still to be heard. -/
structure Arrives (e : Engine) (w : Watcher) (r : RecordId) (text : String) : Prop where
  only : ∀ d ∈ e.deliveries, ∀ text' ∈ textFor r d, text' = text
  arrived : e.graph.current w = .string text ∨ (e.typing? r = some text ∧
    (e.graph.record r = .string text → e.graph.current w = .string text))

theorem Arrives.text_eq {text' : String} (arrives : e.Arrives w r text) (typing : e.typing? r = some text') :
    text' = text := by
  obtain ⟨d, hd, htext⟩ := List.exists_of_findSome?_eq_some typing
  exact arrives.only d hd text' htext

theorem only_perform (wired : e.Wired) (allowed : e.Allows m) (hw : e.graph.watcher? s = some w)
    (target : w.reaction = .showValue n r) (bypass : m.bypasses n = false) (quiet : m.types n = false)
    (only : ∀ d ∈ e.deliveries, ∀ text' ∈ textFor r d, text' = text) :
    ∀ d ∈ (e.perform m).deliveries, ∀ text' ∈ textFor r d, text' = text := by
  have delivers := delivers_perform allowed
  generalize (e.perform m).deliveries = ds at delivers
  intro d hd text' htext
  cases delivers with
  | same _ => exact only d hd text' htext
  | start _ asked =>
    rcases List.mem_cons.1 hd with rfl | hd
    · rw [textFor_started wired hw target bypass quiet asked] at htext
      cases htext
    · exact only d hd text' htext
  | @hear n' event listener pending _ _ before =>
    rcases List.mem_cons.1 hd with rfl | hd
    · apply only (n', event, listener :: pending) (before ▸ List.mem_cons_self) text'
      rw [Option.mem_def, textFor] at htext ⊢
      split at htext
      · next any =>
        dsimp only at any
        rw [if_pos]
        · exact htext
        · rw [List.any_cons, any, Bool.or_true]
      · cases htext
    · exact only d (before ▸ List.mem_cons_of_mem _ hd) text' htext
  | finish _ before => exact only d (before ▸ List.mem_cons_of_mem _ hd) text' htext

theorem arrives_perform (wf : e.WellFormed) (wired : e.Wired) (allowed : e.Allows m)
    (hw : e.graph.watcher? s = some w) (hw' : (e.perform m).graph.watcher? s = some w')
    (target : w.reaction = .showValue n r) (strict : w.policy = .strict)
    (takes : e.graph.forest.takes (.value n)) (bypass : m.bypasses n = false)
    (leaves : e.LeavesTyped m s n r) (whole : e.graph.hasPath (e.graph.origin w) w.path = true)
    (whole' : (e.perform m).graph.hasPath ((e.perform m).graph.origin w) w.path = true)
    (arrives : e.Arrives w r text) : (e.perform m).Arrives w' r text := by
  have only := only_perform wired allowed hw target bypass leaves.typed arrives.only
  have current' : (e.perform m).graph.current w' = (e.perform m).graph.current w := by
    obtain ⟨w₀, hw₀, same⟩ := (changes_perform wf allowed).watched_of_lt (Graph.exists_of_watcher? hw) hw'
    cases hw.symm.trans hw₀
    rw [same]
    rfl
  refine ⟨only, ?_⟩
  rw [current']
  cases heard : e.hearing? m r with
  | some text' =>
    left
    obtain ⟨typing, same⟩ := heard_cases wf wired allowed hw target strict heard whole whole'
    cases arrives.text_eq typing
    rcases same with ⟨same, graph⟩ | ⟨-, -, current, -⟩
    · rw [graph]
      rcases arrives.arrived with current | ⟨-, recorded⟩
      · exact current
      · exact recorded same
    · exact current
  | none =>
    have current := current_perform wf allowed hw whole (leaves.written heard w hw)
    have typing := typing?_perform wired allowed hw target bypass leaves.typed heard
    rw [current, typing]
    rcases arrives.arrived with arrived | ⟨typed, recorded⟩
    · exact .inl arrived
    · refine .inr ⟨typed, ?_⟩
      by_cases updated : e.updated? m = some s
      · rcases recorded_of_updated wired allowed hw target takes updated with ⟨-, -, record⟩ | ⟨-, -, record⟩
        · rw [record]
          exact recorded
        · rw [record]
          exact id
      · rw [record_perform wf wired allowed hw target updated heard]
        exact recorded

theorem arrives_input (wf : e.WellFormed) (wired : e.Wired) (allowed : e.Allows (.input n text))
    (hw : e.graph.watcher? s = some w) (hw' : (e.perform (.input n text)).graph.watcher? s = some w')
    (target : w.reaction = .showValue n r) (takes : e.graph.forest.takes (.value n))
    (whole : e.graph.hasPath (e.graph.origin w) w.path = true) (idle : e.Idle)
    (agree : Value.Agree (e.graph.record r) w.value (e.graph.current w)) :
    (e.perform (.input n text)).Arrives w' r text := by
  have others : e.updated? (.input n text) ≠ some s := nofun
  obtain rfl := watcher_eq_of_not_updated wf allowed hw hw' others
  have typing := (typing?_input text wired hw target takes).1
  have current := current_perform wf allowed hw whole fun _ _ => nofun
  have record := record_perform wf wired allowed hw target others rfl
  refine ⟨?_, .inr ⟨typing, ?_⟩⟩
  · have delivers := delivers_perform allowed
    generalize (e.perform (.input n text)).deliveries = ds at delivers
    intro d hd text' htext
    cases delivers with
    | same _ =>
      rw [idle.delivered] at hd
      cases hd
    | start _ asked =>
      rw [idle.delivered, List.mem_singleton] at hd
      subst hd
      rcases asked with asked | ⟨text, asked, rfl⟩
      · cases asked
      · cases asked
        rw [Option.mem_def, textFor] at htext
        split at htext
        · cases htext
          rfl
        · cases htext
    | hear heard _ => cases heard
    | finish _ before =>
      rw [idle.delivered] at before
      cases before
  · rw [record, current]
    intro recorded
    rcases agree with ⟨-, -, same⟩ | ⟨same, same', -⟩
    · rw [recorded] at same
      exact Value.strictEq_string.1 same
    · rw [← same', ← same, recorded]

end Engine

structure Graph.Binds (g : Graph) (s : SubscriberId) (n : NodeId) : Prop where
  alone : ∀ t ∈ g.fillers (.value n), t = s
  whole : ∀ w ∈ g.watcher? s, g.hasPath (g.origin w) w.path = true

instance (g : Graph) (s : SubscriberId) (n : NodeId) : Decidable (g.Binds s n) :=
  decidable_of_iff ((∀ t ∈ g.fillers (.value n), t = s) ∧
      ∀ w ∈ g.watcher? s, g.hasPath (g.origin w) w.path = true)
    ⟨fun ⟨alone, whole⟩ => ⟨alone, whole⟩, fun h => ⟨h.alone, h.whole⟩⟩

namespace Run

variable {h₂ h₁ h₀ : History} {e₀ e : Engine} {c : CompilerId} {s : SubscriberId} {w : Watcher} {n : NodeId}
  {r : RecordId}

theorem follows (run : Run (h₁ ++ (e₀, .init c) :: h₀) e) (made : e₀.makes (.init c) s)
    (hw : e.graph.watcher? s = some w) (target : w.reaction = .showValue n r) (strict : w.policy = .strict)
    (tolerated : ∀ x ∈ h₁, x.1.Tolerates x.2 s n r) (bound : ∀ g ∈ h₁.graphs e, g.Binds s n) :
    e.Follows w n r := by
  induction h₁ generalizing e w with
  | nil =>
    cases run with
    | move run allowed =>
      exact Engine.follows_init run.wellFormed allowed (Engine.makes_iff.1 made).1 hw target
        (bound _ List.mem_cons_self).alone
  | cons x h₁ ih =>
    cases run with
    | @move _ e m run allowed =>
      have hs := exists_of_made run made
      have later : ∀ g ∈ History.graphs h₁ e, g.Binds s n := fun g hg => bound g (List.mem_cons_of_mem _ hg)
      have binds := later _ List.mem_cons_self
      have binds' := bound _ List.mem_cons_self
      obtain ⟨w₀, hw₀, same⟩ := (Engine.changes_perform run.wellFormed allowed).watched_of_lt hs hw
      have whole' := binds'.whole w hw
      rw [same] at target strict whole'
      have follows := ih run hw₀ target strict (fun y hy => tolerated y (List.mem_cons_of_mem _ hy)) later
      exact Engine.follows_perform run.wellFormed run.wired allowed hw₀ hw target follows strict
        (tolerated _ List.mem_cons_self) binds.alone binds'.alone (binds.whole w₀ hw₀) whole'

theorem watched_since (run : Run (h₁ ++ (e₀, .init c) :: h₀) e) (made : e₀.makes (.init c) s)
    (hw : e.graph.watcher? s = some w) :
    ∀ g ∈ h₁.graphs e, ∃ w₀, g.watcher? s = some w₀ ∧ w = { w₀ with value := w.value } := by
  induction h₁ generalizing e w with
  | nil =>
    intro g hg
    cases List.mem_singleton.1 hg
    exact ⟨w, hw, rfl⟩
  | cons x h₁ ih =>
    cases run with
    | @move _ e m run allowed =>
      have hs := exists_of_made run made
      intro g hg
      rcases List.mem_cons.1 hg with rfl | hg
      · exact ⟨w, hw, rfl⟩
      · obtain ⟨w₁, hw₁, same₁⟩ := (Engine.changes_perform run.wellFormed allowed).watched_of_lt hs hw
        obtain ⟨w₀, hw₀, same₀⟩ := ih run hw₁ g hg
        refine ⟨w₀, hw₀, ?_⟩
        rw [same₁, same₀]

theorem agree_of_idle (run : Run (h₁ ++ (e₀, .init c) :: h₀) e) (unique : e.UniqueIdentities)
    (made : e₀.makes (.init c) s) (alive : e.graph.alive s) (hw : e.graph.watcher? s = some w)
    (target : w.reaction = .showValue n r) (strict : w.policy = .strict)
    (tolerated : ∀ x ∈ h₁, x.1.Tolerates x.2 s n r) (bound : ∀ g ∈ h₁.graphs e, g.Binds s n) (idle : e.Idle) :
    e.graph.forest.shows (.value n) = some (e.graph.current w).text ∧
      Value.Agree (e.graph.record r) w.value (e.graph.current w) := by
  have follows := run.follows made hw target strict tolerated bound
  have held : e.graph.Holds w := by
    refine run.held_of_settled unique made alive hw ?_ idle.settled
    intro g hg
    obtain ⟨w₀, hw₀, same⟩ := run.watched_since made hw g hg
    rw [same]
    exact Graph.missing?_of_hasPath ((bound g hg).whole w₀ hw₀)
  have delivered : e.typing? r = none := by
    rw [Engine.typing?, idle.delivered]
    rfl
  exact follows.agree strict delivered held

theorem arrives {e₁ : Engine} {text : String} {h₃ : History}
    (run : Run (h₂ ++ (e₁, .input n text) :: h₃ ++ (e₀, .init c) :: h₀) e) (unique : e.UniqueIdentities)
    (made : e₀.makes (.init c) s) (alive : e.graph.alive s) (hw : e.graph.watcher? s = some w)
    (target : w.reaction = .showValue n r) (strict : w.policy = .strict)
    (tolerated : ∀ x ∈ h₂ ++ (e₁, .input n text) :: h₃, x.1.Tolerates x.2 s n r)
    (bound : ∀ g ∈ History.graphs (h₂ ++ (e₁, .input n text) :: h₃) e, g.Binds s n) (idle : e₁.Idle)
    (leaves : ∀ x ∈ h₂, x.1.LeavesTyped x.2 s n r) : e.Arrives w r text := by
  induction h₂ generalizing e w with
  | nil =>
    cases run with
    | move run allowed =>
      have wf := run.wellFormed
      have hs := exists_of_made run made
      have changes := Engine.changes_perform wf allowed
      obtain ⟨w₁, hw₁, same⟩ := changes.watched_of_lt hs hw
      rw [same] at target strict
      have tolerated₁ : ∀ x ∈ h₃, x.1.Tolerates x.2 s n r :=
        fun x hx => tolerated x (List.mem_cons_of_mem _ hx)
      have bound₁ : ∀ g ∈ h₃.graphs e₁, g.Binds s n := fun g hg => bound g (List.mem_cons_of_mem _ hg)
      have follows := run.follows made hw₁ target strict tolerated₁ bound₁
      obtain ⟨-, agree⟩ :=
        run.agree_of_idle (unique.earlier wf allowed) made (changes.alive hs alive) hw₁ target
        strict tolerated₁ bound₁ idle
      exact Engine.arrives_input wf run.wired allowed hw₁ hw target follows.takes
        ((bound₁ _ List.mem_cons_self).whole w₁ hw₁) idle agree
  | cons x h₂ ih =>
    cases run with
    | @move _ e m run allowed =>
      have wf := run.wellFormed
      have hs := exists_of_made run made
      have changes := Engine.changes_perform wf allowed
      obtain ⟨w₀, hw₀, same⟩ := changes.watched_of_lt hs hw
      have whole' := (bound _ List.mem_cons_self).whole w hw
      rw [same] at target strict whole'
      have tolerated₀ : ∀ x ∈ h₂ ++ (e₁, .input n text) :: h₃, x.1.Tolerates x.2 s n r :=
        fun x hx => tolerated x (List.mem_cons_of_mem _ hx)
      have bound₀ : ∀ g ∈ History.graphs (h₂ ++ (e₁, .input n text) :: h₃) e, g.Binds s n :=
        fun g hg => bound g (List.mem_cons_of_mem _ hg)
      have arrives := ih run (unique.earlier wf allowed) (changes.alive hs alive) hw₀ target strict tolerated₀
        bound₀ fun y hy => leaves y (List.mem_cons_of_mem _ hy)
      have follows := run.follows made hw₀ target strict tolerated₀ bound₀
      exact Engine.arrives_perform wf run.wired allowed hw₀ hw target strict follows.takes
        (tolerated _ List.mem_cons_self).typed (leaves _ List.mem_cons_self)
        ((bound₀ _ List.mem_cons_self).whole w₀ hw₀) whole' arrives

/-- While nothing is under way, an input value shows the text at the path of its model binding, and the
record, what the watcher holds and the data agree. A text that is typed then is the data once it has been
delivered, unless something else is written to the path or typed meanwhile. -/
theorem model_agrees (run : Run (h₁ ++ (e₀, .init c) :: h₀) e) (unique : e.UniqueIdentities)
    (made : e₀.makes (.init c) s) (mem : s ∈ (e.graph.compiler c).watchers)
    (kept : (e.graph.compiler c).dropped = false) (hw : e.graph.watcher? s = some w)
    (strict : (e.graph.model w.model).options.changeDetection = .strict)
    (target : w.reaction = .showValue n r) (tolerated : ∀ x ∈ h₁, x.1.Tolerates x.2 s n r)
    (bound : ∀ g ∈ h₁.graphs e, g.Binds s n) (idle : e.Idle) :
    e.graph.forest.shows (.value n) = some (e.graph.current w).text ∧
      Value.Agree (e.graph.record r) w.value (e.graph.current w) ∧
      ∀ h₂ e₁ text h₃, h₁ = h₂ ++ (e₁, .input n text) :: h₃ → e₁.Idle →
        (∀ x ∈ h₂, x.1.LeavesTyped x.2 s n r) → e.graph.current w = .string text := by
  have alive := run.alive_of_compiler kept mem
  have policy : w.policy = .strict := by rw [(run.wellFormed.watchers hw).policy, strict]
  obtain ⟨shows, agree⟩ := run.agree_of_idle unique made alive hw target policy tolerated bound idle
  refine ⟨shows, agree, ?_⟩
  intro h₂ e₁ text h₃ same idle₁ leaves
  subst same
  have arrives := run.arrives unique made alive hw target policy tolerated bound idle₁ leaves
  rcases arrives.arrived with arrived | ⟨typing, -⟩
  · exact arrived
  · rw [Engine.typing?, idle.delivered] at typing
    cases typing

def paging (observed : Path) : List Move :=
  [.createStore [("name", .string "x")], .createStore [("o", .object ⟨0⟩)],
    .createModel { data := ⟨1⟩, methods := [("first", ⟨1⟩)], options := {} }, .createWatcher ⟨0⟩ observed ⟨0⟩,
    .edit (.createDocument
      [.element "p" [] [.element "input" [("@input", "first"), ("model", "o.name")] []]]),
    .createCompiler ⟨0⟩ "p" ⟨0⟩]

def page (observed : Path) : Engine := Engine.after {} (paging observed)

/-- The name is written, and while the model binding has not seen this, a text is typed. -/
def interrupting : List Move :=
  [.writePath ⟨1⟩ ⟨["o"], "name"⟩ (.string "b"), .step, .input ⟨2⟩ "c", .step, .resume (.ok ()), .step, .step,
    .step, .resume (.ok ()), .step, .step, .step, .step, .step, .step, .resume (.ok ()), .step, .step, .step,
    .step]

def concluding : List Move :=
  [.step, .resume (.ok ()), .step, .step, .step, .resume (.error .configuration), .step, .step, .step, .step,
    .step, .step]

def interrupted : Engine := ((page ⟨["o"], "name"⟩).perform (.init ⟨0⟩)).after interrupting

def concluded : Engine := (interrupted.perform (.input ⟨2⟩ "d")).after concluding

def conversation : History :=
  (interrupted.perform (.input ⟨2⟩ "d")).trace concluding ++ (interrupted, .input ⟨2⟩ "d") ::
    ((page ⟨["o"], "name"⟩).perform (.init ⟨0⟩)).trace interrupting

theorem concluded_model_agrees :
    ∃ w, concluded.graph.watcher? ⟨1⟩ = some w ∧ w.path = ⟨["o"], "name"⟩ ∧ concluded.Idle ∧
      concluded.graph.forest.shows (.value ⟨2⟩) = some (concluded.graph.current w).text ∧
      Value.Agree (concluded.graph.record ⟨0⟩) w.value (concluded.graph.current w) ∧
      concluded.graph.current w = .string "d" := by
  have run : Run (Engine.trace {} (paging ⟨["o"], "name"⟩)) (page ⟨["o"], "name"⟩) :=
    Run.of_admits (by decide +kernel)
  have run := run.move (m := .init ⟨0⟩) (by decide +kernel)
  have run : Run _ interrupted := run.after interrupting (by decide +kernel)
  have run := run.move (m := .input ⟨2⟩ "d") (by decide +kernel)
  have run : Run _ concluded := run.after concluding (by decide +kernel)
  have run :
      Run (conversation ++ (page ⟨["o"], "name"⟩, .init ⟨0⟩) :: Engine.trace {} (paging ⟨["o"], "name"⟩))
      concluded := by
    rw [conversation, List.append_assoc]
    exact run
  have found : (concluded.graph.watcher? ⟨1⟩).isSome = true := by decide +kernel
  obtain ⟨w, hw⟩ := Option.isSome_iff_exists.1 found
  have facts : ∀ w ∈ concluded.graph.watcher? ⟨1⟩, w.path = ⟨["o"], "name"⟩ ∧
      (concluded.graph.model w.model).options.changeDetection = .strict ∧
        w.reaction = .showValue ⟨2⟩ ⟨0⟩ := by
    decide +kernel
  obtain ⟨path, strict, target⟩ := facts w hw
  have made : (page ⟨["o"], "name"⟩).makes (.init ⟨0⟩) ⟨1⟩ = true := by decide +kernel
  have mem : (⟨1⟩ : SubscriberId) ∈ (concluded.graph.compiler ⟨0⟩).watchers := by decide +kernel
  have kept : (concluded.graph.compiler ⟨0⟩).dropped = false := by decide +kernel
  have tolerated : ∀ x ∈ conversation, x.1.Tolerates x.2 ⟨1⟩ ⟨2⟩ ⟨0⟩ := by decide +kernel
  have bound : ∀ g ∈ conversation.graphs concluded, g.Binds ⟨1⟩ ⟨2⟩ := by decide +kernel
  have idle : concluded.Idle := by decide +kernel
  have quiet : interrupted.Idle := by decide +kernel
  have leaves : ∀ x ∈ (interrupted.perform (.input ⟨2⟩ "d")).trace concluding,
      x.1.LeavesTyped x.2 ⟨1⟩ ⟨2⟩ ⟨0⟩ := by
    decide +kernel
  obtain ⟨shows, agree, arrives⟩ :=
    run.model_agrees (by decide +kernel) made mem kept hw strict target tolerated bound idle
  exact ⟨w, hw, path, idle, shows, agree, arrives _ _ _ _ rfl quiet leaves⟩

structure Defers (e : Engine) (m : Move) (s : SubscriberId) (n : NodeId) (r : RecordId) : Prop where
  typed : m.bypasses n = false
  written : e.hearing? m r = none → ∀ w ∈ e.graph.watcher? s,
    ∀ p ∈ e.graph.reads (e.graph.origin w) w.path, e.written? m = some p →
      ∀ d ∈ e.deliveries, ¬ (d.1 = n ∧ d.2.1.kind = "input" ∧ d.2.1.value.isSome)

instance (e : Engine) (m : Move) (s : SubscriberId) (n : NodeId) (r : RecordId) :
    Decidable (Defers e m s n r) :=
  decidable_of_iff (m.bypasses n = false ∧ (e.hearing? m r = none → ∀ w ∈ e.graph.watcher? s,
      ∀ p ∈ e.graph.reads (e.graph.origin w) w.path, e.written? m = some p →
        ∀ d ∈ e.deliveries, ¬ (d.1 = n ∧ d.2.1.kind = "input" ∧ d.2.1.value.isSome)))
    ⟨fun ⟨typed, written⟩ => ⟨typed, written⟩, fun h => ⟨h.typed, h.written⟩⟩

structure Deferring (h₁ : History) (e₀ : Engine) (c : CompilerId) (h₀ : History) (e : Engine)
    (s : SubscriberId) (w : Watcher) (n : NodeId) (r : RecordId) : Prop where
  run : Run (h₁ ++ (e₀, .init c) :: h₀) e
  unique : e.UniqueIdentities
  made : e₀.makes (.init c) s
  mem : s ∈ (e.graph.compiler c).watchers
  kept : (e.graph.compiler c).dropped = false
  watched : e.graph.watcher? s = some w
  strict : (e.graph.model w.model).options.changeDetection = .strict
  target : w.reaction = .showValue n r
  defers : ∀ x ∈ h₁, Defers x.1 x.2 s n r
  bound : ∀ g ∈ h₁.graphs e, g.Binds s n
  idle : e.Idle

/-- While a text is delivered another one is typed before the watcher has seen it, and while that one is
delivered the first text is typed again before the listener has heard of the second. -/
def retyping : List Move :=
  [.input ⟨2⟩ "a", .step, .resume (.ok ()), .step, .step, .step, .input ⟨2⟩ "x", .step, .input ⟨2⟩ "a", .step,
    .resume (.ok ()), .step, .step, .step, .step, .resume (.ok ()), .step, .step, .step, .resume (.ok ()),
    .step, .step, .step, .step, .step, .step, .resume (.ok ()), .step, .step, .step, .step, .step, .step]

/-- The object is replaced, and before the watcher has seen this a text is typed, and after that the name is
written that the watcher holds. -/
def overwriting : List Move :=
  [.createStore [("name", .string "y")], .write ⟨1⟩ "o" (.object ⟨2⟩), .step, .input ⟨2⟩ "a", .step,
    .resume (.ok ()), .step, .step, .step, .step, .step, .writePath ⟨1⟩ ⟨["o"], "name"⟩ (.string "x"), .step,
    .resume (.ok ()), .step, .step, .step, .step]

def outtyping : List Move :=
  [.step, .resume (.ok ()), .step, .step, .step, .input ⟨2⟩ "z", .step, .resume (.ok ()), .step, .step, .step,
    .resume (.ok ()), .step, .step, .step, .step, .step, .step, .resume (.ok ()), .step, .step, .step, .step,
    .step, .step]

def since (observed : Path) (moves : List Move) : History := ((page observed).perform (.init ⟨0⟩)).trace moves

def upon (observed : Path) (moves : List Move) : Engine := ((page observed).perform (.init ⟨0⟩)).after moves

def Deferred (observed : Path) (moves : List Move) (w : Watcher) : Prop :=
  Deferring (since observed moves) (page observed) ⟨0⟩ (Engine.trace {} (paging observed))
    (upon observed moves) ⟨1⟩ w ⟨2⟩ ⟨0⟩

theorem deferred_of_admits (observed : Path) (moves : List Move)
    (admitted : Engine.admits {} (paging observed) ∧ (page observed).Allows (.init ⟨0⟩) ∧
      ((page observed).perform (.init ⟨0⟩)).admits moves)
    (bound : (upon observed moves).UniqueIdentities ∧ (page observed).makes (.init ⟨0⟩) ⟨1⟩ ∧
      ⟨1⟩ ∈ ((upon observed moves).graph.compiler ⟨0⟩).watchers ∧
      ((upon observed moves).graph.compiler ⟨0⟩).dropped = false)
    (found : ((upon observed moves).graph.watcher? ⟨1⟩).isSome ∧
      ∀ w ∈ (upon observed moves).graph.watcher? ⟨1⟩,
        ((upon observed moves).graph.model w.model).options.changeDetection = .strict ∧
          w.reaction = .showValue ⟨2⟩ ⟨0⟩)
    (kept : (∀ x ∈ since observed moves, Defers x.1 x.2 ⟨1⟩ ⟨2⟩ ⟨0⟩) ∧
      (∀ g ∈ (since observed moves).graphs (upon observed moves), g.Binds ⟨1⟩ ⟨2⟩) ∧
      (upon observed moves).Idle) : ∃ w, Deferred observed moves w := by
  obtain ⟨w, hw⟩ := Option.isSome_iff_exists.1 found.1
  have run : Run (Engine.trace {} (paging observed)) (page observed) := Run.of_admits admitted.1
  exact ⟨w, {
    run := (run.move admitted.2.1).after moves admitted.2.2
    unique := bound.1
    made := bound.2.1
    mem := bound.2.2.1
    kept := bound.2.2.2
    watched := hw
    strict := (found.2 w hw).1
    target := (found.2 w hw).2
    defers := kept.1
    bound := kept.2.1
    idle := kept.2.2 }⟩

/-- The slot and the data disagree after a text was typed again, and after the path was written once the
typing was over. A text does not arrive if another one is typed while it is delivered. -/
theorem model_disagrees :
    (∃ w, Deferred ⟨["o"], "name"⟩ retyping w ∧
      (upon ⟨["o"], "name"⟩ retyping).graph.forest.shows (.value ⟨2⟩) ≠
        some ((upon ⟨["o"], "name"⟩ retyping).graph.current w).text) ∧
    (∃ w, Deferred ⟨[], "o"⟩ overwriting w ∧
      (upon ⟨[], "o"⟩ overwriting).graph.forest.shows (.value ⟨2⟩) ≠
        some ((upon ⟨[], "o"⟩ overwriting).graph.current w).text) ∧
    ∃ w h₂ e₁ h₃, Deferred ⟨["o"], "name"⟩ (.input ⟨2⟩ "a" :: outtyping) w ∧
      since ⟨["o"], "name"⟩ (.input ⟨2⟩ "a" :: outtyping) = h₂ ++ (e₁, .input ⟨2⟩ "a") :: h₃ ∧ e₁.Idle ∧
      (upon ⟨["o"], "name"⟩ (.input ⟨2⟩ "a" :: outtyping)).graph.current w ≠ .string "a" := by
  refine ⟨?retyped, ?overwritten, ?outtyped⟩
  case retyped =>
    have deferred : ∃ w, Deferred ⟨["o"], "name"⟩ retyping w := by
      apply deferred_of_admits <;> decide +kernel
    have differs : ∀ w ∈ (upon ⟨["o"], "name"⟩ retyping).graph.watcher? ⟨1⟩,
        (upon ⟨["o"], "name"⟩ retyping).graph.forest.shows (.value ⟨2⟩) ≠
          some ((upon ⟨["o"], "name"⟩ retyping).graph.current w).text := by decide +kernel
    obtain ⟨w, deferred⟩ := deferred
    exact ⟨w, deferred, differs w deferred.watched⟩
  case overwritten =>
    have deferred : ∃ w, Deferred ⟨[], "o"⟩ overwriting w := by
      apply deferred_of_admits <;> decide +kernel
    have differs : ∀ w ∈ (upon ⟨[], "o"⟩ overwriting).graph.watcher? ⟨1⟩,
        (upon ⟨[], "o"⟩ overwriting).graph.forest.shows (.value ⟨2⟩) ≠
          some ((upon ⟨[], "o"⟩ overwriting).graph.current w).text := by decide +kernel
    obtain ⟨w, deferred⟩ := deferred
    exact ⟨w, deferred, differs w deferred.watched⟩
  case outtyped =>
    have deferred : ∃ w, Deferred ⟨["o"], "name"⟩ (.input ⟨2⟩ "a" :: outtyping) w := by
      apply deferred_of_admits <;> decide +kernel
    have differs : ∀ w ∈ (upon ⟨["o"], "name"⟩ (.input ⟨2⟩ "a" :: outtyping)).graph.watcher? ⟨1⟩,
        (upon ⟨["o"], "name"⟩ (.input ⟨2⟩ "a" :: outtyping)).graph.current w ≠ .string "a" := by
      decide +kernel
    have quiet : ((page ⟨["o"], "name"⟩).perform (.init ⟨0⟩)).Idle := by decide +kernel
    obtain ⟨w, deferred⟩ := deferred
    exact ⟨w, _, _, [], deferred, rfl, quiet, differs w deferred.watched⟩

end Run

end DataBinding
