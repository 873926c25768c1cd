import DataBinding.Proofs.KeptSubscribers

namespace DataBinding

open DataBinding.Graph (Changes)

def Engine.invocation? (e : Engine) (m : Move) (s : SubscriberId) : Option (Value × Value) :=
  if e.updated? m = some s then (e.graph.watcher? s).bind fun w => (e.graph.refresh s w).1 else none

def updateTurn (model : ModelId) (callback : CallbackId) : Option (Value × Value) → Turn
  | some (new, old) => .environment (.call callback (.change model new old))
  | none => .result (.ok ())

namespace History

def invocations (s : SubscriberId) : History → List (Value × Value)
  | [] => []
  | (e, m) :: h => invocations s h ++ (e.invocation? m s).toList

def initial? (s : SubscriberId) : History → Option Value
  | [] => none
  | (e, m) :: h => if e.makes m s then ((e.perform m).graph.watcher? s).map Watcher.value else initial? s h

end History

namespace Engine

variable {e : Engine} {m : Move} {s : SubscriberId} {w w' : Watcher}

theorem invocation?_of_not_updated (h : e.updated? m ≠ some s) : e.invocation? m s = none := if_neg h

theorem invocation?_eq (updated : e.updated? m = some s) (hw : e.graph.watcher? s = some w) : e.invocation? m s =
    if w.policy.same (e.graph.current w) w.value then none else some (e.graph.current w, w.value) := by
  rw [invocation?, if_pos updated, hw, Option.bind_some]
  rcases Graph.refresh_cases e.graph s w with ⟨same, found⟩ | ⟨changed, found⟩
  · rw [found, same]
    rfl
  · rw [found, changed]
    rfl

theorem invocation?_of_updated (allowed : e.Allows m) (updated : e.updated? m = some s)
    (hw : e.graph.watcher? s = some w) (hw' : (e.perform m).graph.watcher? s = some w') :
    (e.invocation? m s = none ∧ w' = w) ∨
      (e.invocation? m s = some (w'.value, w.value) ∧ w.policy.same w'.value w.value = false) := by
  have called := invocation?_eq updated hw
  rcases watcher?_of_updated allowed updated hw with ⟨same, hu⟩ | ⟨changed, hu⟩
  · cases hw'.symm.trans hu
    rw [same] at called
    exact .inl ⟨called, rfl⟩
  · cases hw'.symm.trans hu
    rw [changed] at called
    exact .inr ⟨called, changed⟩

theorem turn_of_updated {callback : CallbackId} (allowed : e.Allows m) (updated : e.updated? m = some s)
    (hw : e.graph.watcher? s = some w) (reaction : w.reaction = .call callback) :
    (e.perform m).turn = updateTurn w.model callback (e.invocation? m s) := by
  obtain ⟨-, frames, turn, h⟩ := perform_of_updated allowed updated
  have hw₁ := (watcher?_retain e.graph s s).trans hw
  have called := invocation?_eq updated hw
  rw [← current_retain e.graph s w] at called
  have updates := updates_update ⟨e.graph.retain s, frames, turn⟩ s
  rw [h]
  generalize update ⟨e.graph.retain s, frames, turn⟩ s = e' at updates
  cases updates with
  | notified role => rw [Graph.watcher?, role] at hw₁; cases hw₁
  | same watcher same =>
    cases hw₁.symm.trans watcher
    rw [same] at called
    rw [called]
    rfl
  | called watcher changed hcall =>
    cases hw₁.symm.trans watcher
    rw [reaction] at hcall
    cases hcall
    rw [changed] at called
    rw [called]
    rfl
  | filled watcher _ hslot _ =>
    cases hw₁.symm.trans watcher
    rw [reaction] at hslot
    cases hslot
  | failed watcher _ hslot _ =>
    cases hw₁.symm.trans watcher
    rw [reaction] at hslot
    cases hslot

end Engine

/-- A list of new values and values before that leads from a first value to that of a watcher. -/
structure Watcher.Chained (w : Watcher) (first : Value) (l : List (Value × Value)) : Prop where
  link : l.map Prod.snd ++ [w.value] = first :: l.map Prod.fst
  changed : ∀ p ∈ l, w.policy.same p.1 p.2 = false

theorem Watcher.chained_nil (w : Watcher) : w.Chained w.value [] where
  link := rfl
  changed := nofun

theorem Watcher.Chained.append {w w' : Watcher} {first : Value} {l : List (Value × Value)}
    (h : w.Chained first l) (policy : w'.policy = w.policy)
    (changed : w.policy.same w'.value w.value = false) :
    w'.Chained first (l ++ [(w'.value, w.value)]) where
  link := by
    rw [List.map_append, List.map_append]
    exact congrArg (· ++ [w'.value]) h.link
  changed := by
    intro p hp
    rw [policy]
    rcases List.mem_append.1 hp with hp | hp
    · exact h.changed p hp
    · rw [List.mem_singleton.1 hp]
      exact changed

@[simp] theorem History.invocations_cons (s : SubscriberId) (e : Engine) (m : Move) (h : History) :
    History.invocations s ((e, m) :: h) = History.invocations s h ++ (e.invocation? m s).toList := rfl

theorem History.invocations_eq_nil {s : SubscriberId} {h : History}
    (never : ∀ x ∈ h, x.1.updated? x.2 ≠ some s) :
    History.invocations s h = [] := by
  induction h with
  | nil => rfl
  | cons x h ih =>
    rw [invocations_cons, Engine.invocation?_of_not_updated (never x List.mem_cons_self), Option.toList_none,
      List.append_nil]
    exact ih fun y hy => never y (List.mem_cons_of_mem _ hy)

theorem Engine.chained_perform {e : Engine} {m : Move} {s : SubscriberId} {w w' : Watcher} {first : Value}
    {l : List (Value × Value)} (wf : e.WellFormed) (allowed : e.Allows m) (hs : s.index < e.graph.subscribers.size)
    (hw : e.graph.watcher? s = some w) (hw' : (e.perform m).graph.watcher? s = some w')
    (policy : w'.policy = w.policy) (chained : w.Chained first l) :
    w'.Chained first (l ++ (e.invocation? m s).toList) := by
  by_cases updated : e.updated? m = some s
  · rcases invocation?_of_updated allowed updated hw hw' with ⟨none, rfl⟩ | ⟨some, differs⟩
    · rw [none, Option.toList_none, List.append_nil]
      exact chained
    · rw [some, Option.toList_some]
      exact chained.append policy differs
  · rw [invocation?_of_not_updated updated, Option.toList_none, List.append_nil]
    rw [watcher?_of_not_updated wf allowed hs updated, hw] at hw'
    cases hw'
    exact chained

namespace Run

variable {h : History} {e : Engine} {s : SubscriberId} {w : Watcher}

theorem exists_of_updated (run : Run h e) :
    ∀ x ∈ h, x.1.updated? x.2 = some s → s.index < e.graph.subscribers.size := by
  induction run with
  | start =>
    intro x hx
    cases hx
  | @move h e m run allowed ih =>
    have grown := (Engine.changes_perform run.wellFormed allowed).subscribers
    intro x hx updated
    rcases List.mem_cons.1 hx with rfl | hx
    · have alive := (Engine.perform_of_updated allowed updated).1
      exact Nat.lt_of_lt_of_le (Graph.exists_of_alive alive) grown
    · exact Nat.lt_of_lt_of_le (ih x hx updated) grown

theorem not_updated_of_makes {m : Move} (run : Run h e) (allowed : e.Allows m)
    (new : e.graph.subscribers.size ≤ s.index) : ∀ x ∈ (e, m) :: h, x.1.updated? x.2 ≠ some s := by
  intro x hx updated
  apply Nat.not_lt_of_le new
  rcases List.mem_cons.1 hx with rfl | hx
  · exact Graph.exists_of_alive (Engine.perform_of_updated allowed updated).1
  · exact run.exists_of_updated x hx updated

theorem chained (run : Run h e) (hw : e.graph.watcher? s = some w) :
    ∃ first, h.initial? s = some first ∧ w.Chained first (h.invocations s) := by
  refine run.of_watcher (P := fun h _ w => ∃ first, h.initial? s = some first ∧ w.Chained first (h.invocations s))
    hw ?made ?kept
  case made =>
    intro h e m w run allowed late new hw
    refine ⟨w.value, ?_, ?_⟩
    · rw [History.initial?, new, if_pos rfl, hw]
      rfl
    · rw [History.invocations_eq_nil (run.not_updated_of_makes allowed late)]
      exact w.chained_nil
  case kept =>
    rintro h e m w w' run allowed hs old hw hw' same ⟨first, hfirst, chained⟩
    refine ⟨first, by rw [History.initial?, old]; exact hfirst, ?_⟩
    rw [History.invocations_cons]
    exact Engine.chained_perform run.wellFormed allowed hs hw hw' (by rw [same]) chained

theorem turn_of_update {callback : CallbackId} (run : Run h e) (hw : e.graph.watcher? s = some w)
    (reaction : w.reaction = .call callback) :
    ∀ x ∈ h, x.1.updated? x.2 = some s →
      (x.1.perform x.2).turn = updateTurn w.model callback (x.1.invocation? x.2 s) := by
  refine run.of_watcher (P := fun h _ w => w.reaction = .call callback → ∀ x ∈ h, x.1.updated? x.2 = some s →
    (x.1.perform x.2).turn = updateTurn w.model callback (x.1.invocation? x.2 s)) hw ?made ?kept reaction
  case made =>
    intro h e m w run allowed late new hw reaction x hx updated
    exact absurd updated (run.not_updated_of_makes allowed late x hx)
  case kept =>
    intro h e m w w' run allowed hs old hw hw' same turns reaction x hx updated
    have model : w'.model = w.model := by rw [same]
    rw [same] at reaction
    rw [model]
    rcases List.mem_cons.1 hx with rfl | hx
    · exact Engine.turn_of_updated allowed updated hw reaction
    · exact turns reaction x hx updated

/-- The values before, followed by the present one, are the first value followed by the new ones, and every
change that is reported is one. A callback of the environment is asked for once for each of them. -/
theorem invocations_chain (run : Run h e) (hw : e.graph.watcher? s = some w) :
    ∃ first, h.initial? s = some first ∧ w.Chained first (h.invocations s) ∧
      ∀ callback, w.reaction = .call callback → ∀ x ∈ h, x.1.updated? x.2 = some s →
        (x.1.perform x.2).turn = updateTurn w.model callback (x.1.invocation? x.2 s) := by
  obtain ⟨first, hfirst, chained⟩ := run.chained hw
  exact ⟨first, hfirst, chained, fun callback => run.turn_of_update hw⟩

/-- A callback writes the property that its watcher watches, is invoked again by that, and fails then. -/
def overtaking : List Move :=
  [.createStore [("a", .null)], .createModel { data := ⟨0⟩, methods := [], options := {} },
    .createWatcher ⟨0⟩ ⟨[], "a"⟩ ⟨0⟩, .write ⟨0⟩ "a" (.bool false), .step, .write ⟨0⟩ "a" (.bool true), .step,
    .resume (.error .configuration), .step, .step, .resume (.ok ()), .step, .step, .run ⟨0⟩, .step]

def overtaken : Engine := Engine.after {} overtaking

theorem overtaken_invocations_chain :
    ∃ w, overtaken.graph.watcher? ⟨0⟩ = some w ∧ ∃ first,
      (Engine.trace {} overtaking).initial? ⟨0⟩ = some first ∧
      w.Chained first ((Engine.trace {} overtaking).invocations ⟨0⟩) ∧
      ∀ callback, w.reaction = .call callback → ∀ x ∈ Engine.trace {} overtaking,
        x.1.updated? x.2 = some ⟨0⟩ →
        (x.1.perform x.2).turn = updateTurn w.model callback (x.1.invocation? x.2 ⟨0⟩) := by
  have run : Run (Engine.trace {} overtaking) overtaken := Run.of_admits (by decide +kernel)
  have found : (overtaken.graph.watcher? ⟨0⟩).isSome = true := by decide +kernel
  obtain ⟨w, hw⟩ := Option.isSome_iff_exists.1 found
  have chain := run.invocations_chain hw
  exact ⟨w, hw, chain⟩

end Run

end DataBinding
