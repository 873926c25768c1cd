import DataBinding.Proofs.TypedTextCorrection

namespace DataBinding

theorem Double.same_congr {x y : Double} (h : x.same y = true) (z : Double) : z.same y = z.same x := by
  rw [Bool.eq_iff_iff]
  constructor
  · intro same
    rw [same_comm] at h
    exact same_trans same h
  · intro same
    exact same_trans same h

namespace Value

def echoes : ChangeDetection → Value → Bool
  | _, .string _ => true
  | .loose, .array _ | .loose, .object _ => true
  | .loose, .number x => (numberOfText (Value.number x).text).same x
  | _, _ => false

variable {a v : Value} {x : Double} {policy : ChangeDetection}

theorem numberOfText_bool (b : Bool) : numberOfText (Value.bool b).text = .nan := by
  cases b <;> decide +kernel

theorem same_text (policy : ChangeDetection) (v : Value) : policy.same (.string v.text) v = v.echoes policy := by
  cases policy with
  | strict => cases v <;> simp [ChangeDetection.same, strictEq, echoes, text]
  | loose =>
    cases v with
    | bool b =>
      have number := numberOfText_bool b
      simp [ChangeDetection.same, looseEq, isNullish, widened, flattened, sameContent, echoes, number, Double.same]
    | _ => simp [ChangeDetection.same, looseEq, isNullish, widened, flattened, sameContent, echoes, text]

theorem looseEq_string (t : String) (a : Value) :
    (string t).looseEq a = (!a.isNullish && sameContent (.string t) a.widened.flattened) := by
  cases a <;> simp [looseEq, isNullish, widened, flattened]

theorem looseEq_of_widened (number : v.widened = .number x) (a : Value) :
    v.looseEq a = (!a.isNullish && sameContent (.number x) a.widened.flattened) := by
  have whole : v.isNullish = false := by cases v <;> first | rfl | cases number
  cases a <;> simp only [looseEq, whole, number] <;> simp [isNullish, widened, flattened]

theorem looseEq_number (number : v.widened = .number x) (same : v.looseEq a = true)
    (shown : v.text = a.text ∨ (string v.text).looseEq a = true) :
    (string v.text).looseEq a = (numberOfText v.text).same x := by
  rw [looseEq_of_widened number] at same
  rw [looseEq_string] at shown ⊢
  cases a with
  | undefined => cases same
  | null => cases same
  | bool b =>
    simp only [isNullish, widened, flattened, sameContent, Bool.not_false, Bool.true_and] at same ⊢
    exact Double.same_congr same _
  | number y =>
    simp only [isNullish, widened, flattened, sameContent, Bool.not_false, Bool.true_and] at same ⊢
    exact Double.same_congr same _
  | _ =>
    simp only [isNullish, widened, flattened, sameContent, text, Bool.not_false, Bool.true_and, decide_eq_true_eq,
      or_self] at same shown ⊢
    rw [shown, Double.same_comm, same]
    exact decide_eq_true rfl

theorem looseEq_text (same : v.looseEq a = true) (shown : v.text = a.text ∨ (string v.text).looseEq a = true) :
    (string v.text).looseEq a = v.echoes .loose := by
  cases v with
  | undefined => cases a <;> simp_all [looseEq, isNullish, echoes]
  | null => cases a <;> simp_all [looseEq, isNullish, echoes]
  | bool b =>
    rw [looseEq_number rfl same shown, numberOfText_bool]
    rfl
  | number x => rw [looseEq_number rfl same shown, echoes]
  | string s => rw [text, same, echoes]
  | array xs =>
    cases a with
    | array ys =>
      simp only [looseEq, isNullish, widened, Bool.or_self, Bool.false_eq_true, if_false] at same
      simp [looseEq, isNullish, widened, flattened, sameContent, echoes, text, itemTexts_of_strictEqItems same]
    | _ => simp_all [looseEq, isNullish, echoes, widened, flattened, sameContent]
  | object s => cases a <;> simp_all [looseEq, isNullish, echoes, widened, flattened, sameContent, text]

theorem same_of_shown (held : v = a ∨ policy.same v a = true)
    (shown : v.text = a.text ∨ policy.same (.string v.text) a = true) :
    policy.same (.string v.text) a = v.echoes policy := by
  rcases held with rfl | same
  · exact same_text policy v
  · cases policy with
    | strict => cases v <;> cases a <;> simp_all [ChangeDetection.same, strictEq, echoes, text]
    | loose =>
      simp only [ChangeDetection.same] at same shown ⊢
      exact looseEq_text same shown

end Value

namespace Engine

variable {e : Engine} {m : Move} {s : SubscriberId} {w w' : Watcher} {n : NodeId} {r : RecordId} {text : String}
  {v : Value}

/-- The text of a value is on its way to the listener. It meets the value, and what is recorded then tells whether it
is written; or it has been written. -/
structure Echoes (e : Engine) (w : Watcher) (r : RecordId) (text : String) (v : Value) : Prop where
  only : ∀ d ∈ e.deliveries, ∀ text' ∈ textFor r d, text' = text
  stands : (e.graph.current w = v ∧ w.policy.same (.string text) (e.graph.record r) = v.echoes w.policy ∧
      (v.echoes w.policy = false → e.typing? r = some text)) ∨
    (v.echoes w.policy = false ∧ e.graph.current w = .string text ∧
      w.policy.same (.string text) (e.graph.record r) = true)

theorem Echoes.text_eq {text' : String} (echoes : e.Echoes w r text v) (typing : e.typing? r = some text') :
    text' = text := by
  obtain ⟨d, hd, htext⟩ := List.exists_of_findSome?_eq_some typing
  exact echoes.only d hd text' htext

theorem echoes_hear (wf : e.WellFormed) (wired : e.Wired) (allowed : e.Allows m)
    (hw : e.graph.watcher? s = some w) (target : w.reaction = .showValue n r)
    (whole : e.graph.hasPath (e.graph.origin w) w.path = true)
    (whole' : (e.perform m).graph.hasPath ((e.perform m).graph.origin w) w.path = true)
    (heard : e.hearing? m r = some text) (only : ∀ d ∈ (e.perform m).deliveries, ∀ text' ∈ textFor r d, text' = text)
    (echoes : e.Echoes w r text v) : (e.perform m).Echoes w r text v := by
  refine ⟨only, ?_⟩
  obtain ⟨-, cases⟩ := hearing_cases wf wired allowed hw target heard whole whole'
  rcases cases with ⟨same, -, graph⟩ | ⟨differs, -, record, current, -⟩
  · rw [graph]
    rcases echoes.stands with ⟨current, guard, -⟩ | written
    · left
      refine ⟨current, guard, ?_⟩
      rw [← guard, same]
      nofun
    · exact .inr written
  · rcases echoes.stands with ⟨-, guard, -⟩ | ⟨-, -, same⟩
    · right
      rw [current, record, ← guard]
      exact ⟨differs, rfl, Value.same_text w.policy (.string text)⟩
    · rw [same] at differs
      cases differs

theorem echoes_of_deaf (wf : e.WellFormed) (wired : e.Wired) (allowed : e.Allows m)
    (hw : e.graph.watcher? s = some w) (target : w.reaction = .showValue n r) (takes : e.graph.forest.takes (.value n))
    (bypass : m.bypasses n = false) (leaves : e.LeavesTyped m s n r)
    (whole : e.graph.hasPath (e.graph.origin w) w.path = true) (deaf : e.hearing? m r = none) (rendered : text = v.text)
    (only : ∀ d ∈ (e.perform m).deliveries, ∀ text' ∈ textFor r d, text' = text)
    (echoes : e.Echoes w r text v) : (e.perform m).Echoes w r text v := by
  refine ⟨only, ?_⟩
  have current := current_perform wf allowed hw whole (leaves.written deaf w hw)
  have typing := typing?_perform wired allowed hw target bypass leaves.typed deaf
  rw [current, typing]
  have record : (e.perform m).graph.record r = e.graph.record r ∨
      (e.perform m).graph.record r = e.graph.current w := by
    by_cases updated : e.updated? m = some s
    · rcases recorded_of_updated wired allowed hw target takes updated with ⟨-, -, record⟩ | ⟨-, -, record⟩
      · exact .inl record
      · exact .inr record
    · exact .inl (record_perform wf wired allowed hw target updated deaf)
  rcases echoes.stands with ⟨meets, guard, typed⟩ | ⟨plain, meets, same⟩
  · left
    refine ⟨meets, ?_, typed⟩
    rcases record with record | record
    · rw [record]
      exact guard
    · rw [record, meets, rendered]
      exact Value.same_text w.policy v
  · right
    refine ⟨plain, meets, ?_⟩
    rcases record with record | record
    · rw [record]
      exact same
    · rw [record, meets]
      exact Value.same_text w.policy (.string text)

theorem echoes_perform (wf : e.WellFormed) (wired : e.Wired) (allowed : e.Allows m)
    (hw : e.graph.watcher? s = some w) (hw' : (e.perform m).graph.watcher? s = some w')
    (target : w.reaction = .showValue n r) (takes : e.graph.forest.takes (.value n))
    (bypass : m.bypasses n = false) (leaves : e.LeavesTyped m s n r)
    (whole : e.graph.hasPath (e.graph.origin w) w.path = true)
    (whole' : (e.perform m).graph.hasPath ((e.perform m).graph.origin w) w.path = true)
    (rendered : text = v.text) (echoes : e.Echoes w r text v) : (e.perform m).Echoes w' r text v := by
  have only := only_perform wired allowed hw target bypass leaves.typed echoes.only
  have before : (e.perform m).Echoes w r text v := by
    cases heard : e.hearing? m r with
    | some text' =>
      obtain rfl := echoes.text_eq (hearing_cases wf wired allowed hw target heard whole whole').1
      exact echoes_hear wf wired allowed hw target whole whole' heard only echoes
    | none => exact echoes_of_deaf wf wired allowed hw target takes bypass leaves whole heard rendered only echoes
  -- a watcher changes nothing but the value that it holds
  obtain ⟨w₀, hw₀, same⟩ := (changes_perform wf allowed).watched_of_lt (Graph.exists_of_watcher? hw) hw'
  cases hw.symm.trans hw₀
  rw [same]
  exact ⟨before.only, before.stands⟩

theorem echoes_input (wf : e.WellFormed) (wired : e.Wired) (allowed : e.Allows (.input n text))
    (hw : e.graph.watcher? s = some w) (hw' : (e.perform (.input n text)).graph.watcher? s = some w')
    (target : w.reaction = .showValue n r) (takes : e.graph.forest.takes (.value n))
    (whole : e.graph.hasPath (e.graph.origin w) w.path = true) (quiet : e.typing? r = none)
    (guard : w.policy.same (.string text) (e.graph.record r) = (e.graph.current w).echoes w.policy) :
    (e.perform (.input n text)).Echoes w' r text (e.graph.current w) := by
  have others : e.updated? (.input n text) ≠ some s := nofun
  obtain rfl := watcher_eq_of_not_updated wf allowed hw hw' others
  have typing := (typing?_input text wired hw target takes).1
  have current := current_perform wf allowed hw whole fun _ _ => nofun
  have record := record_perform wf wired allowed hw target others rfl
  refine ⟨?_, .inl ⟨current, by rw [record, guard], fun _ => typing⟩⟩
  have silent : ∀ d ∈ e.deliveries, textFor r d = none := List.findSome?_eq_none_iff.1 quiet
  have delivers := delivers_perform allowed
  generalize (e.perform (.input n text)).deliveries = ds at delivers
  intro d hd text' htext
  cases delivers with
  | same _ =>
    rw [silent d hd] at htext
    cases htext
  | start _ asked =>
    rcases List.mem_cons.1 hd with rfl | hd
    · rcases asked with asked | ⟨text, asked, rfl⟩
      · cases asked
      · cases asked
        rw [Option.mem_def, textFor] at htext
        split at htext
        · cases htext
          rfl
        · cases htext
    · rw [silent d hd] at htext
      cases htext
  | hear heard _ => cases heard
  | finish _ before =>
    rw [silent d (before ▸ List.mem_cons_of_mem _ hd)] at htext
    cases htext

end Engine

namespace Run

variable {h₂ h₁ h₀ : History} {e₀ e₁ e : Engine} {c : CompilerId} {s : SubscriberId} {w : Watcher} {n : NodeId}
  {r : RecordId} {text : String}

theorem Bound.echoes (bound : Bound (h₂ ++ (e₁, .input n text) :: h₁) e₀ c h₀ e s w n r)
    (rendered : text = (e₁.graph.current w).text) (quiet : e₁.typing? r = none)
    (guard : w.policy.same (.string text) (e₁.graph.record r) = (e₁.graph.current w).echoes w.policy)
    (leaves : ∀ x ∈ h₂, x.1.LeavesTyped x.2 s n r) : e.Echoes w r text (e₁.graph.current w) := by
  induction h₂ generalizing e w with
  | nil =>
    obtain ⟨allowed, rfl, w₁, bound₁, same⟩ := bound.earlier
    have current : e₁.graph.current w = e₁.graph.current w₁ := by rw [same]; rfl
    have policy : w.policy = w₁.policy := by rw [same]
    rw [current, policy] at guard
    rw [current]
    exact Engine.echoes_input bound₁.run.wellFormed bound₁.run.wired allowed bound₁.watched bound.watched
      bound₁.target bound₁.mirrors.takes bound₁.whole quiet guard
  | cons x h₂ ih =>
    obtain ⟨allowed, rfl, w₁, bound₁, same⟩ := bound.earlier
    have bound₁ : Bound (h₂ ++ (e₁, .input n text) :: h₁) e₀ c h₀ x.1 s w₁ n r := bound₁
    have current : e₁.graph.current w = e₁.graph.current w₁ := by rw [same]; rfl
    have policy : w.policy = w₁.policy := by rw [same]
    have whole := bound.whole
    rw [current] at rendered guard ⊢
    rw [policy] at guard
    rw [same] at whole
    have echoes := ih bound₁ rendered guard fun y hy => leaves y (List.mem_cons_of_mem _ hy)
    exact Engine.echoes_perform bound₁.run.wellFormed bound₁.run.wired allowed bound₁.watched bound.watched
      bound₁.target bound₁.mirrors.takes (bound.typed _ List.mem_cons_self) (leaves _ List.mem_cons_self)
      bound₁.whole whole rendered echoes

theorem Bound.unwritten (bound : Bound (h₂ ++ (e₁, .input n text) :: h₁) e₀ c h₀ e s w n r)
    (rendered : text = (e₁.graph.current w).text) (quiet : e₁.typing? r = none)
    (guard : w.policy.same (.string text) (e₁.graph.record r) = (e₁.graph.current w).echoes w.policy)
    (leaves : ∀ x ∈ h₂, x.1.LeavesTyped x.2 s n r) (same : (e₁.graph.current w).echoes w.policy = true) :
    ∀ x ∈ h₂, (x.1.hearing? x.2 r).isSome → x.1.written? x.2 = none ∧ (x.1.perform x.2).graph = x.1.graph := by
  induction h₂ generalizing e w with
  | nil =>
    intro x hx
    cases hx
  | cons x h₂ ih =>
    obtain ⟨allowed, rfl, w₁, bound₁, same₁⟩ := bound.earlier
    have bound₁ : Bound (h₂ ++ (e₁, .input n text) :: h₁) e₀ c h₀ x.1 s w₁ n r := bound₁
    have current : e₁.graph.current w = e₁.graph.current w₁ := by rw [same₁]; rfl
    have policy : w.policy = w₁.policy := by rw [same₁]
    have whole := bound.whole
    rw [current] at rendered guard same
    rw [policy] at guard same
    rw [same₁] at whole
    have leaves₁ : ∀ y ∈ h₂, y.1.LeavesTyped y.2 s n r := fun y hy => leaves y (List.mem_cons_of_mem _ hy)
    have echoes := bound₁.echoes rendered quiet guard leaves₁
    intro y hy hears
    rcases List.mem_cons.1 hy with rfl | hy
    · obtain ⟨text', heard⟩ := Option.isSome_iff_exists.1 hears
      obtain ⟨typing, cases⟩ := Engine.hearing_cases bound₁.run.wellFormed bound₁.run.wired allowed bound₁.watched
        bound₁.target heard bound₁.whole whole
      cases echoes.text_eq typing
      rcases cases with ⟨-, unwritten, graph⟩ | ⟨differs, -⟩
      · exact ⟨unwritten, graph⟩
      · rcases echoes.stands with ⟨-, guard, -⟩ | ⟨other, -⟩
        · rw [differs, same] at guard
          cases guard
        · rw [same] at other
          cases other
    · exact ih bound₁ rendered guard leaves₁ same y hy hears

/-- The text that an input value shows for the data is typed, while no other text is on its way and no taken text is
unanswered. Until it has been heard nobody else types or writes to the path. -/
structure Echo (h₂ : History) (e₁ : Engine) (text : String) (h₁ : History) (e₀ : Engine) (c : CompilerId)
    (h₀ : History) (e : Engine) (s : SubscriberId) (w : Watcher) (n : NodeId) (r : RecordId) : Prop where
  bound : Bound (h₂ ++ (e₁, .input n text) :: h₁) e₀ c h₀ e s w n r
  unique : e.UniqueIdentities
  mem : s ∈ (e.graph.compiler c).watchers
  kept : (e.graph.compiler c).dropped = false
  seen : e₁.Settled ∨ ∀ w₁ ∈ e₁.graph.watcher? s, e₁.graph.Holds w₁
  shown : e₁.graph.forest.shows (.value n) = some text
  rendered : text = (e₁.graph.current w).text
  quiet : e₁.typing? r = none
  answered : History.unanswered? s n r h₁ = none
  leaves : ∀ x ∈ h₂, x.1.LeavesTyped x.2 s n r

theorem Bound.input (bound : Bound (h₂ ++ (e₁, .input n text) :: h₁) e₀ c h₀ e s w n r) :
    ∃ w₁, Bound h₁ e₀ c h₀ e₁ s w₁ n r ∧ w = { w₁ with value := w.value } := by
  induction h₂ generalizing e w with
  | nil =>
    obtain ⟨-, -, w₁, bound₁, same⟩ := bound.earlier
    exact ⟨w₁, bound₁, same⟩
  | cons x h₂ ih =>
    obtain ⟨-, -, w₂, bound₂, same₂⟩ := bound.earlier
    obtain ⟨w₁, bound₁, same₁⟩ := ih bound₂
    refine ⟨w₁, bound₁, ?_⟩
    rw [same₂, same₁]

theorem Echo.guard (echo : Echo h₂ e₁ text h₁ e₀ c h₀ e s w n r) :
    w.policy.same (.string text) (e₁.graph.record r) = (e₁.graph.current w).echoes w.policy := by
  obtain ⟨bound, unique, mem, kept, seen, shown, rendered, quiet, answered, -⟩ := echo
  obtain ⟨w₁, bound₁, same⟩ := bound.input
  have current : e₁.graph.current w = e₁.graph.current w₁ := by rw [same]; rfl
  have policy : w.policy = w₁.policy := by rw [same]
  have held : e₁.graph.Holds w₁ := by
    rcases seen with settled | held
    · have alive := bound.run.alive_of_compiler kept mem
      have run : Run ((h₂ ++ [(e₁, .input n text)]) ++ (h₁ ++ (e₀, .init c) :: h₀)) e := by
        rw [List.append_assoc, List.singleton_append, ← List.cons_append, ← List.append_assoc]
        exact bound.run
      have alive₁ := (bound₁.run.alive_since run).2 s (Graph.exists_of_watcher? bound₁.watched) alive
      exact bound₁.holds (bound₁.run.unique_since run unique) alive₁ settled
    · exact held w₁ bound₁.watched
  have mirrors := bound₁.mirrors
  obtain ⟨text', shows, mirrored⟩ := mirrors.shown answered
  cases shown.symm.trans shows
  rw [current] at rendered ⊢
  rw [policy, mirrors.recorded answered, rendered]
  apply Value.same_of_shown held
  rw [mirrors.recorded answered, rendered] at mirrored
  rcases mirrored with same | same | typing
  · exact .inl same
  · exact .inr same
  · rw [Engine.typingAbove?_zero, quiet] at typing
    cases typing

/-- The listener that hears the text of the data writes nothing if the policy takes that text for the data, which then
stays. Otherwise the data is that text in the end. -/
theorem echo_unwritten (echo : Echo h₂ e₁ text h₁ e₀ c h₀ e s w n r) :
    ((e₁.graph.current w).echoes w.policy = true →
      (∀ x ∈ h₂, (x.1.hearing? x.2 r).isSome →
        x.1.written? x.2 = none ∧ (x.1.perform x.2).graph = x.1.graph) ∧
      e.graph.current w = e₁.graph.current w) ∧
    ((e₁.graph.current w).echoes w.policy = false → e.typing? r = none →
      e.graph.current w = .string text) := by
  have guard := echo.guard
  have stands := (echo.bound.echoes echo.rendered echo.quiet guard echo.leaves).stands
  constructor
  · intro same
    refine ⟨echo.bound.unwritten echo.rendered echo.quiet guard echo.leaves same, ?_⟩
    rcases stands with ⟨current, -⟩ | ⟨other, -⟩
    · exact current
    · rw [same] at other
      cases other
  · intro other delivered
    rcases stands with ⟨-, -, typing⟩ | ⟨-, current, -⟩
    · rw [delivered] at typing
      cases typing other
    · exact current

@[simp] theorem trace_append (e : Engine) (ms ms' : List Move) (m : Move) :
    e.trace (ms ++ m :: ms') = ((e.after ms).perform m).trace ms' ++ (e.after ms, m) :: e.trace ms := by
  induction ms generalizing e with
  | nil => rfl
  | cons m₁ ms ih =>
    rw [List.cons_append, Engine.trace, ih, List.append_assoc, Engine.trace]
    rfl

def forming (policy : ChangeDetection) : List Move :=
  [.createStore [("a", .null)],
    .createModel { data := ⟨0⟩, methods := [], options := { changeDetection := policy } },
    .edit (.createDocument [.element "p" [] [.element "input" [("model", "a")] []]]),
    .createCompiler ⟨0⟩ "p" ⟨0⟩]

def formed (policy : ChangeDetection) : Engine := Engine.after {} (forming policy)

def primed (policy : ChangeDetection) : Engine := (formed policy).perform (.init ⟨0⟩)

def filling (v : Value) : List Move := [.write ⟨0⟩ "a" v, .step, .step, .step]

def filled (policy : ChangeDetection) (v : Value) : Engine := (primed policy).after (filling v)

def echoing (v : Value) (text : String) (steps : Nat) : List Move :=
  filling v ++ .input ⟨2⟩ text :: List.replicate steps .step

def echoed (policy : ChangeDetection) (v : Value) (text : String) (steps : Nat) : Engine :=
  (primed policy).after (echoing v text steps)

def Echoed (policy : ChangeDetection) (v : Value) (text : String) (steps : Nat) (w : Watcher) : Prop :=
  Echo (((filled policy v).perform (.input ⟨2⟩ text)).trace (List.replicate steps .step)) (filled policy v) text
    ((primed policy).trace (filling v)) (formed policy) ⟨0⟩ (Engine.trace {} (forming policy))
    (echoed policy v text steps) ⟨0⟩ w ⟨2⟩ ⟨0⟩

theorem echo_echoed (policy : ChangeDetection) (v : Value) (text : String) (steps : Nat)
    (admitted : Engine.admits {} (forming policy) ∧ (formed policy).Allows (.init ⟨0⟩) ∧
      (primed policy).admits (echoing v text steps))
    (made : (formed policy).makes (.init ⟨0⟩) ⟨0⟩)
    (found : ((echoed policy v text steps).graph.watcher? ⟨0⟩).isSome ∧
      ∀ w ∈ (echoed policy v text steps).graph.watcher? ⟨0⟩, w.reaction = .showValue ⟨2⟩ ⟨0⟩ ∧
        text = ((filled policy v).graph.current w).text)
    (typed : ∀ x ∈ (primed policy).trace (echoing v text steps), x.2.bypasses ⟨2⟩ = false)
    (binds : ∀ g ∈ ((primed policy).trace (echoing v text steps)).graphs (echoed policy v text steps),
      g.Binds ⟨0⟩ ⟨2⟩)
    (kept : (echoed policy v text steps).UniqueIdentities ∧
      ⟨0⟩ ∈ ((echoed policy v text steps).graph.compiler ⟨0⟩).watchers ∧
      ((echoed policy v text steps).graph.compiler ⟨0⟩).dropped = false)
    (settled : (filled policy v).Settled ∧ (filled policy v).graph.forest.shows (.value ⟨2⟩) = some text ∧
      (filled policy v).typing? ⟨0⟩ = none)
    (answered : (History.unanswered? ⟨0⟩ ⟨2⟩ ⟨0⟩ ((primed policy).trace (filling v))).isNone)
    (leaves : ∀ x ∈ ((filled policy v).perform (.input ⟨2⟩ text)).trace (List.replicate steps .step),
      x.1.LeavesTyped x.2 ⟨0⟩ ⟨2⟩ ⟨0⟩) : ∃ w, Echoed policy v text steps w := by
  have run : Run (Engine.trace {} (forming policy)) (formed policy) := Run.of_admits admitted.1
  obtain ⟨w, bound⟩ := bound_of_admits (echoing v text steps) run admitted.2 made
    ⟨found.1, fun w hw => (found.2 w hw).1⟩ typed binds
  have rendered := (found.2 w bound.watched).2
  rw [echoing, trace_append] at bound
  exact ⟨w, {
    bound := bound
    unique := kept.1
    mem := kept.2.1
    kept := kept.2.2
    seen := .inl settled.1
    shown := settled.2.1
    rendered := rendered
    quiet := settled.2.2
    answered := Option.isNone_iff_eq_none.1 answered
    leaves := leaves }⟩

/-- A number that is typed again stays one under the loose policy; a boolean does not stay one under the strict. -/
theorem echoed_echo_unwritten :
    (∃ w, Echoed .loose (.number (.ofInt 5)) "5" 3 w ∧
      (echoed .loose (.number (.ofInt 5)) "5" 3).graph.current w = .number (.ofInt 5)) ∧
    ∃ w, Echoed .strict (.bool true) "true" 6 w ∧
      (echoed .strict (.bool true) "true" 6).graph.current w = .string "true" := by
  constructor
  · have echo : ∃ w, Echoed .loose (.number (.ofInt 5)) "5" 3 w := by
      apply echo_echoed <;> decide +kernel
    obtain ⟨w, echo⟩ := echo
    have facts : ∀ w ∈ (echoed .loose (.number (.ofInt 5)) "5" 3).graph.watcher? ⟨0⟩, w.policy = .loose ∧
        (filled .loose (.number (.ofInt 5))).graph.current w = .number (.ofInt 5) := by decide +kernel
    obtain ⟨policy, current⟩ := facts w echo.bound.watched
    refine ⟨w, echo, ?_⟩
    rw [((echo_unwritten echo).1 ?_).2, current]
    rw [policy, current]
    decide +kernel
  · have echo : ∃ w, Echoed .strict (.bool true) "true" 6 w := by
      apply echo_echoed <;> decide +kernel
    obtain ⟨w, echo⟩ := echo
    have facts : ∀ w ∈ (echoed .strict (.bool true) "true" 6).graph.watcher? ⟨0⟩, w.policy = .strict ∧
        (filled .strict (.bool true)).graph.current w = .bool true := by decide +kernel
    obtain ⟨policy, current⟩ := facts w echo.bound.watched
    refine ⟨w, echo, (echo_unwritten echo).2 ?_ (by decide +kernel)⟩
    rw [policy, current]
    rfl

theorem echo_written :
    (∃ w, Echoed .strict (.number (.ofInt 5)) "5" 6 w ∧
      (echoed .strict (.number (.ofInt 5)) "5" 6).graph.current w ≠ .number (.ofInt 5)) ∧
    ∃ w, Echoed .loose (.bool true) "true" 6 w ∧
      (echoed .loose (.bool true) "true" 6).graph.current w ≠ .bool true := by
  constructor
  · have echo : ∃ w, Echoed .strict (.number (.ofInt 5)) "5" 6 w := by
      apply echo_echoed <;> decide +kernel
    have differs : ∀ w ∈ (echoed .strict (.number (.ofInt 5)) "5" 6).graph.watcher? ⟨0⟩,
        (echoed .strict (.number (.ofInt 5)) "5" 6).graph.current w ≠ .number (.ofInt 5) := by decide +kernel
    obtain ⟨w, echo⟩ := echo
    exact ⟨w, echo, differs w echo.bound.watched⟩
  · have echo : ∃ w, Echoed .loose (.bool true) "true" 6 w := by
      apply echo_echoed <;> decide +kernel
    have differs : ∀ w ∈ (echoed .loose (.bool true) "true" 6).graph.watcher? ⟨0⟩,
        (echoed .loose (.bool true) "true" 6).graph.current w ≠ .bool true := by decide +kernel
    obtain ⟨w, echo⟩ := echo
    exact ⟨w, echo, differs w echo.bound.watched⟩

end Run

end DataBinding
