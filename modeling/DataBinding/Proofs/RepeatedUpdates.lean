import DataBinding.Proofs.InvocationChain
import DataBinding.Proofs.ModelBindingAgreement
import DataBinding.Proofs.ReaderRegistration
import DataBinding.Proofs.SplitEngines

namespace DataBinding

open DataBinding.Graph (Changes)

namespace Value

mutual

def hasNaN : Value → Bool
  | .number x => x = .nan
  | .array items => anyNaN items
  | _ => false

def anyNaN : List Value → Bool
  | [] => false
  | v :: vs => v.hasNaN || anyNaN vs

end

mutual

@[simp] theorem strictEq_self (v : Value) : v.strictEq v = !v.hasNaN := by
  match v with
  | .undefined | .null | .bool _ | .string _ | .object _ => simp [strictEq, hasNaN]
  | .number x =>
    rw [strictEq, hasNaN, Bool.eq_iff_iff, Double.same_self_iff]
    simp
  | .array items =>
    rw [strictEq, hasNaN]
    exact strictEqItems_self items

@[simp] theorem strictEqItems_self (vs : List Value) : strictEqItems vs vs = !anyNaN vs := by
  match vs with
  | [] => rfl
  | v :: vs => rw [strictEqItems, anyNaN, strictEq_self v, strictEqItems_self vs, Bool.not_or]

end

@[simp] theorem looseEq_self (v : Value) : v.looseEq v = !v.hasNaN := by
  cases v with
  | bool b => cases b <;> decide +kernel
  | array items => simp [looseEq, isNullish, widened, hasNaN]
  | number x => simpa [looseEq, isNullish, widened, flattened, sameContent, strictEq] using strictEq_self (.number x)
  | _ => simp [looseEq, isNullish, widened, flattened, sameContent, hasNaN]

@[simp] theorem same_self (policy : ChangeDetection) (v : Value) : policy.same v v = !v.hasNaN := by
  cases policy with
  | strict => exact strictEq_self v
  | loose => exact looseEq_self v

end Value

namespace Graph

variable {g g' g₁ g₂ g₃ : Graph} {s : StoreId}

def Still (g g' : Graph) : Prop := ∀ t k, t.index < g.stores.size → g'.property? t k = g.property? t k

theorem Still.of_same (same : ∀ t k, g'.property? t k = g.property? t k) : Still g g' := fun t k _ => same t k

@[simp] theorem property?_release (g : Graph) (s : SubscriberId) (t : StoreId) (k : String) :
    (g.release s).property? t k = g.property? t k := by
  unfold release
  dsimp only
  split
  · split <;> rfl
  · rfl

@[simp] theorem property?_releases (ss : List SubscriberId) (g : Graph) (t : StoreId) (k : String) :
    (ss.foldl release g).property? t k = g.property? t k := by
  induction ss generalizing g with
  | nil => rfl
  | cons s ss ih => exact (ih _).trans (property?_release g s t k)

theorem still_createStore (g : Graph) (pairs : List (String × Value)) : Still g (g.createStore pairs).2 := by
  intro t k exist
  simp [property?, Nat.ne_of_lt exist]

end Graph

namespace Engine

variable {e e' : Engine} {m : Move} {s : SubscriberId} {w w' : Watcher}

theorem still_steps (h : Steps e e') (quiet : e.written? .step = none) : e.graph.Still e'.graph := by
  apply Graph.Still.of_same
  intro t k
  cases h with
  | update alive => exact property?_update _ _ _ _
  | @hear g n event listener pending first frames =>
    rcases hear_cases ⟨g, .delivery n event pending first :: frames, .next⟩ event listener with
      ⟨⟨turn, h⟩, -⟩ | ⟨m, path, r, text, -, -, -, ⟨-, -, h⟩ | ⟨u, -, typed, -⟩⟩
    · rw [h]
    · rw [h]
      rfl
    · rw [written?] at quiet
      cases quiet.symm.trans typed
  | run => exact Graph.property?_release _ _ _ _
  | @acceptPass _ _ running _ _ _ _ =>
    cases running with
    | none => rfl
    | some s => exact Graph.property?_release _ _ _ _
  | acceptRun => exact Graph.property?_release _ _ _ _
  | _ => rfl

theorem still_perform (wf : e.WellFormed) (allowed : e.Allows m) (quiet : e.written? m = none) :
    e.graph.Still (e.perform m).graph := by
  cases m with
  | step => exact still_steps (steps_of_allows allowed) quiet
  | write t key v => cases quiet
  | writePath t path v =>
    rw [written?, Option.map_eq_none_iff] at quiet
    simp only [perform, writePath, quiet]
    exact .of_same fun _ _ => rfl
  | notify r => exact .of_same (Graph.property?_setReaders _ _ _)
  | run s => exact .of_same (property?_update _ s)
  | call m name event =>
    simp only [perform, call]
    cases (e.graph.model m).methods.get? name <;> exact .of_same fun _ _ => rfl
  | input n text =>
    simp only [perform, input]
    cases e.graph.forest.setValue n text <;> exact .of_same fun _ _ => rfl
  | readPath reader s path => exact .of_same (Graph.enrolled_readPath e.graph reader s path).property
  | register r s => exact .of_same (Graph.enrolled_register e.graph r s).property
  | createStore pairs => exact Graph.still_createStore e.graph pairs
  | createWatcher m path callback =>
    exact .of_same (Graph.gains_createWatcher e.graph m path (.call callback)).property
  | release s => exact .of_same (Graph.property?_release e.graph s)
  | init c => exact .of_same (Graph.initializes_init (wf.compilers allowed.2.1)).extended.grows.property
  | dropCompiler c => exact .of_same (Graph.property?_releases (e.graph.compiler c).watchers _)
  | _ => exact .of_same fun _ _ => rfl

end Engine

namespace Graph

variable {S : Share} {g g' : Graph} {s : StoreId} {w : Watcher} {last : String} {keys : List String}

theorem absent_of_missingAlong? (closed : g.Closed S) (here : S.Has g .store s.index) {p : StoreId × String}
    (missing : p ∈ g.missingAlong? s last keys) : S.Has g .store p.1.index ∧ g.property? p.1 p.2 = none := by
  induction keys generalizing s with
  | nil =>
    rw [missingAlong?] at missing
    split at missing
    · cases missing
    · next absent =>
      cases missing
      exact ⟨here, Option.not_isSome_iff_eq_none.1 absent⟩
  | cons key keys ih =>
    rw [missingAlong?] at missing
    split at missing
    · next absent =>
      cases missing
      exact ⟨here, absent⟩
    · next next found => exact ih (closed.peek here.1 key next (peek_of_property? found)) missing
    · cases missing

theorem Still.valueAt (h : Still g g') (closed : g.Closed S) (here : S.Has g .store s.index) (path : Path) :
    g'.valueAt s path = g.valueAt s path := by
  apply valueAt_stable
  · intro p mem
    obtain ⟨v, hv⟩ := Option.isSome_iff_exists.1 (property?_of_mem_readsAlong mem)
    exact h p.1 p.2 (exists_of_property? hv)
  · intro p missing
    obtain ⟨exist, absent⟩ := absent_of_missingAlong? closed here missing
    rw [h p.1 p.2 exist.2, absent]

theorem Still.current {written : Option (StoreId × String)} {updated : Option SubscriberId} (h : Still g g')
    (changes : Changes written updated g g') (closed : g.Closed S) {s : SubscriberId} (here : S .subscriber s.index)
    (hw : g.watcher? s = some w) : g'.current w = g.current w := by
  have known := (closed.watcher here hw).model
  rw [Graph.current, origin, changes.model known.2]
  exact h.valueAt closed (closed.data known) w.path

end Graph

namespace Engine

variable {e : Engine} {m : Move} {s : SubscriberId} {w : Watcher}

theorem rests_perform (closed : e.Closed Share.whole) (wf : e.WellFormed) (allowed : e.Allows m)
    (quiet : e.written? m = none) (hw : e.graph.watcher? s = some w) (holds : e.graph.Holds w) :
    (e.perform m).graph.watcher? s = some w ∧ (e.perform m).graph.current w = e.graph.current w := by
  constructor
  · by_cases updated : e.updated? m = some s
    · rcases watcher?_of_updated allowed updated hw with ⟨-, kept⟩ | ⟨changed, renewed⟩
      · exact kept
      · rcases holds with found | same
        · rw [renewed, found]
        · rw [same] at changed
          cases changed
    · rw [watcher?_of_not_updated wf allowed (Graph.exists_of_watcher? hw) updated, hw]
  · exact (still_perform wf allowed quiet).current (changes_perform wf allowed) closed.graph rfl hw

theorem turn_of_same (allowed : e.Allows m) (updated : e.updated? m = some s) (hw : e.graph.watcher? s = some w)
    (same : w.policy.same (e.graph.current w) w.value = true) : (e.perform m).turn = .result (.ok ()) := by
  obtain ⟨-, frames, turn, performed⟩ := perform_of_updated allowed updated
  have watcher := (watcher?_retain e.graph s s).trans hw
  have updates := updates_update ⟨e.graph.retain s, frames, turn⟩ s
  have found := (current_retain e.graph s w).symm ▸ same
  rw [performed]
  generalize update ⟨e.graph.retain s, frames, turn⟩ s = e' at updates
  cases updates with
  | notified role =>
    rw [Graph.watcher?, role] at watcher
    cases watcher
  | same _ _ => rfl
  | called watcher' changed _ | filled watcher' changed _ _ | failed watcher' changed _ _ =>
    cases watcher.symm.trans watcher'
    cases found.symm.trans changed

theorem answer_of_run (e : Engine) (s : SubscriberId) {r : Except Error Unit} (turn : (e.run s).turn = .result r) :
    ((e.run s).perform .step).turn = .environment (.answer (.done r)) := by
  have frames : (e.run s).frames = .run s :: e.frames := frames_update _ _
  rw [perform, step?, turn, Option.getD_some, accept, frames]
  rfl

theorem silent_of_same (allowed : e.Allows m) (updated : e.updated? m = some s) (hw : e.graph.watcher? s = some w)
    (same : w.policy.same (e.graph.current w) w.value = true) : e.invocation? m s = none ∧
      (e.perform m).turn = .result (.ok ()) ∧
      (m = .run s → ((e.perform m).perform .step).turn = .environment (.answer (.done (.ok ())))) := by
  have turn := turn_of_same allowed updated hw same
  refine ⟨by rw [invocation?_eq updated hw, if_pos same], turn, ?_⟩
  rintro rfl
  exact answer_of_run e s turn

end Engine

namespace Run

variable {h₁ h₂ : History} {e₁ e₂ : Engine} {m₁ m₂ : Move} {s : SubscriberId} {w : Watcher}

theorem rests_since {h₀ : History} {e₀ e : Engine} (run₀ : Run h₀ e₀) (run : Run (h₁ ++ h₀) e)
    (known : History.Known (h₁ ++ h₀)) (quiet : ∀ x ∈ h₁, x.1.written? x.2 = none)
    (hw : e₀.graph.watcher? s = some w) (holds : e₀.graph.Holds w) :
    e.graph.watcher? s = some w ∧ e.graph.current w = e₀.graph.current w := by
  refine run₀.along (P := fun _ e => e.graph.watcher? s = some w ∧ e.graph.current w = e₀.graph.current w) run
    ⟨hw, rfl⟩ ?_
  rintro h e m part earlier allowed ⟨watched, found⟩
  have known' : History.Known (h ++ h₀) := by
    intro y mem
    have later : (e, m) :: (h ++ h₀) <:+ h₁ ++ h₀ := (List.suffix_append_inj_of_length_eq rfl).2 ⟨part, rfl⟩
    exact known y (later.subset (List.mem_cons_of_mem _ mem))
  have holds' : e.graph.Holds w := by rwa [Graph.Holds, found]
  obtain ⟨watched', found'⟩ := Engine.rests_perform (earlier.closed_of_known known') earlier.wellFormed allowed
    (quiet _ (part.subset List.mem_cons_self)) watched holds'
  exact ⟨watched', found'.trans found⟩

/-- A watcher has been updated, and nothing has been written since. If its callback was not called then, or there is no
NaN in the value that it has found, one more update goes through without a callback. Otherwise the callback is called
again with this value, as the new one and as the one before. In either case the watcher holds what it has held. -/
theorem updated_again (run : Run (h₂ ++ (e₁, m₁) :: h₁) e₂) (known : History.Known (h₂ ++ (e₁, m₁) :: h₁))
    (first : e₁.updated? m₁ = some s) (hw : e₁.graph.watcher? s = some w)
    (quiet : ∀ x ∈ h₂, x.1.written? x.2 = none) (allowed : e₂.Allows m₂) (again : e₂.updated? m₂ = some s) :
    let v := e₁.graph.current w
    (e₂.graph.watcher? s = (e₁.perform m₁).graph.watcher? s ∧
        (e₂.perform m₂).graph.watcher? s = (e₁.perform m₁).graph.watcher? s) ∧
      (e₁.invocation? m₁ s = none ∨ v.hasNaN = false → e₂.invocation? m₂ s = none ∧
        (e₂.perform m₂).turn = .result (.ok ()) ∧
        (m₂ = .run s → ((e₂.perform m₂).perform .step).turn = .environment (.answer (.done (.ok ()))))) ∧
      (e₁.invocation? m₁ s ≠ none → v.hasNaN = true → e₂.invocation? m₂ s = some (v, v)) := by
  intro v
  obtain ⟨before, allowed₁, run₁⟩ := run.of_move
  have known₁ : History.Known h₁ := fun x mem => known x (List.mem_append_right _ (List.mem_cons_of_mem _ mem))
  have closed := before.closed_of_known known₁
  have wf := before.wellFormed
  have told := Engine.invocation?_eq first hw
  have still : (e₁.perform m₁).graph.current w = v :=
    (Engine.still_perform wf allowed₁ (Engine.written?_of_updated first)).current (Engine.changes_perform wf allowed₁)
      closed.graph rfl hw
  have later {w' : Watcher} (hw' : (e₁.perform m₁).graph.watcher? s = some w')
      (holds : (e₁.perform m₁).graph.Holds w') :=
    run₁.rests_since run known quiet hw' holds
  have last {w' : Watcher} (hw' : e₂.graph.watcher? s = some w') (holds : e₂.graph.Holds w') :=
    (Engine.rests_perform (run.closed_of_known known) run.wellFormed allowed (Engine.written?_of_updated again) hw'
      holds).1
  rcases Engine.watcher?_of_updated allowed₁ first hw with ⟨same, hw'⟩ | ⟨changed, hw'⟩
  · -- the first update has found nothing new
    have silent : e₁.invocation? m₁ s = none := told.trans (if_pos same)
    obtain ⟨watched, found⟩ := later hw' (.inr (still.symm ▸ same))
    rw [still] at found
    have same' : w.policy.same (e₂.graph.current w) w.value = true := found.symm ▸ same
    rw [hw', watched, last watched (.inr same')]
    exact ⟨⟨rfl, rfl⟩, fun _ => Engine.silent_of_same allowed again watched same', fun some => absurd silent some⟩
  · have called : e₁.invocation? m₁ s = some (v, w.value) :=
      told.trans (if_neg (by rw [changed]; exact Bool.false_ne_true))
    obtain ⟨watched, found⟩ := later hw' (.inl still)
    have found : e₂.graph.current { w with value := v } = v := found.trans still
    have self := Value.same_self w.policy v
    rw [hw', watched, last watched (.inl found)]
    refine ⟨⟨rfl, rfl⟩, fun plain => ?_, fun _ special => ?_⟩
    · have same : w.policy.same (e₂.graph.current { w with value := v }) v = true := by
        rcases plain with silent | plain
        · rw [called] at silent
          cases silent
        · rw [found, self, plain]
          rfl
      exact Engine.silent_of_same allowed again watched same
    · rw [Engine.invocation?_eq again watched, found]
      exact if_neg (by rw [self, special]; exact Bool.false_ne_true)

def asking (v : Value) : List Move :=
  [.createStore [("a", .null)], .createModel { data := ⟨0⟩, methods := [], options := {} },
    .createWatcher ⟨0⟩ ⟨[], "a"⟩ ⟨0⟩, .write ⟨0⟩ "a" v]

def asked (v : Value) : Engine := Engine.after {} (asking v)

def answering : List Move := [.createStore [("b", .object ⟨0⟩)], .resume (.ok ()), .step, .step]

def settled (v : Value) : Engine := ((asked v).perform .step).after answering

def answeredHistory (v : Value) : History :=
  ((asked v).perform .step).trace answering ++ (asked v, .step) :: Engine.trace {} (asking v)

theorem run_settled {v : Value} (begun : Engine.admits {} (asking v) = true) (told : (asked v).Allows .step)
    (ended : ((asked v).perform .step).admits answering = true) : Run (answeredHistory v) (settled v) :=
  Run.after (Run.move (Run.of_admits begun) told) answering ended

def pair : Value := .array [.number .one, .string "x"]

theorem pair_updated_again :
    (asked pair).invocation? .step ⟨0⟩ = some (pair, .null) ∧ (settled pair).Allows (.run ⟨0⟩) ∧
      (settled pair).invocation? (.run ⟨0⟩) ⟨0⟩ = none ∧
      (((settled pair).perform (.run ⟨0⟩)).perform .step).turn = .environment (.answer (.done (.ok ()))) ∧
      ((settled pair).perform (.run ⟨0⟩)).graph.watcher? ⟨0⟩ = ((asked pair).perform .step).graph.watcher? ⟨0⟩ := by
  have run : Run (answeredHistory pair) (settled pair) :=
    run_settled (by decide +kernel) (by decide +kernel) (by decide +kernel)
  have found : ((asked pair).graph.watcher? ⟨0⟩).isSome = true := by decide +kernel
  obtain ⟨w, hw⟩ := Option.isSome_iff_exists.1 found
  have allowed : (settled pair).Allows (.run ⟨0⟩) := by decide +kernel
  have current : ((asked pair).graph.watcher? ⟨0⟩).map (asked pair).graph.current = some pair := by decide +kernel
  rw [hw, Option.map_some, Option.some.injEq] at current
  obtain ⟨watchers, silent, -⟩ :=
    run.updated_again (by decide +kernel) (by decide +kernel) hw (by decide +kernel) allowed rfl
  rw [current] at silent
  obtain ⟨none, -, answer⟩ := silent (.inr (by decide +kernel))
  exact ⟨by decide +kernel, allowed, none, answer rfl, watchers.2⟩

theorem nan_told_again :
    Run (answeredHistory (.number .nan)) (settled (.number .nan)) ∧ (answeredHistory (.number .nan)).Known ∧
      (asked (.number .nan)).updated? .step = some ⟨0⟩ ∧
      (asked (.number .nan)).invocation? .step ⟨0⟩ = some (.number .nan, .null) ∧
      (∀ x ∈ ((asked (.number .nan)).perform .step).trace answering, x.1.written? x.2 = none) ∧
      (settled (.number .nan)).Allows (.run ⟨0⟩) ∧
      (settled (.number .nan)).invocation? (.run ⟨0⟩) ⟨0⟩ = some (.number .nan, .number .nan) :=
  ⟨run_settled (by decide +kernel) (by decide +kernel) (by decide +kernel), by decide +kernel, by decide +kernel,
    by decide +kernel, by decide +kernel, by decide +kernel, by decide +kernel⟩

end Run

end DataBinding
