import Mathlib.Data.List.Forall2
import DataBinding.Proofs.DroppedCompilers
import DataBinding.Proofs.EqualityLaws
import DataBinding.Proofs.TrackedReading
import DataBinding.Proofs.TypedTextDelivery

namespace DataBinding

section

variable {policy : ChangeDetection} {first v c : Value} {vs : List Value} {l : List (Value × Bool)}

namespace ChangeDetection

def held (policy : ChangeDetection) (first : Value) : List Value → Value
  | [] => first
  | v :: vs => if policy.same v (policy.held first vs) then policy.held first vs else v

def reports (policy : ChangeDetection) (first : Value) : List Value → List (Value × Bool)
  | [] => []
  | v :: vs => (v, !policy.same v (policy.held first vs)) :: policy.reports first vs

theorem held_or_same (policy : ChangeDetection) (first : Value) (vs : List Value) :
    policy.held first vs = vs.headD first ∨ policy.same (vs.headD first) (policy.held first vs) = true := by
  cases vs with
  | nil => exact .inl rfl
  | cons v vs =>
    rw [held]
    split
    · next same => exact .inr same
    · exact .inl rfl

theorem same_loose_of_strict (same : strict.same v (strict.held first vs) = true) :
    loose.same v (loose.held first vs) = true := by
  have last : v.strictEq (vs.headD first) = true := by
    rcases held_or_same .strict first vs with held | near
    · rwa [held] at same
    · exact Value.strictEq_trans same (Value.strictEq_symm near)
  -- the loose watcher may hold an older value, to which both of these are equal after conversion, or neither
  rcases held_or_same .loose first vs with held | near
  · rw [held]
    exact Value.looseEq_of_strictEq last
  · exact (Value.looseEq_congr last _).trans near

theorem reports_loose (first : Value) (vs : List Value) :
    List.Forall₂ (fun l s => l.1 = s.1 ∧ (l.2 = true → s.2 = true)) (loose.reports first vs)
      (strict.reports first vs) := by
  induction vs with
  | nil => exact .nil
  | cons v vs ih =>
    refine .cons ⟨rfl, fun reported => ?_⟩ ih
    rw [Bool.not_eq_true'] at reported ⊢
    rw [← Bool.not_eq_true] at reported ⊢
    exact mt same_loose_of_strict reported

end ChangeDetection

def latest (first : Value) (l : List (Value × Bool)) : Value := (l.map Prod.fst).headD first

def marked (l : List (Value × Bool)) : List (Value × Bool) := l.modifyHead fun x => (x.1, true)

@[simp] theorem map_fst_marked (l : List (Value × Bool)) : (marked l).map Prod.fst = l.map Prod.fst := by
  cases l <;> rfl

/-- These are the values that are reported and the others, and this is held after them. -/
structure Told (policy : ChangeDetection) (first : Value) (l : List (Value × Bool)) (c : Value) : Prop where
  told : l = policy.reports first (l.map Prod.fst)
  held : c = policy.held first (l.map Prod.fst)

namespace Told

theorem quiet (told : Told policy first l c) (same : policy.same v c = true) :
    Told policy first ((v, false) :: l) c where
  told := by rw [List.map_cons, ChangeDetection.reports, ← told.held, same, ← told.told]; rfl
  held := by rw [List.map_cons, ChangeDetection.held, ← told.held, if_pos same]

theorem call (told : Told policy first l c) (changed : policy.same v c = false) :
    Told policy first ((v, true) :: l) v where
  told := by rw [List.map_cons, ChangeDetection.reports, ← told.held, changed, ← told.told]; rfl
  held := by rw [List.map_cons, ChangeDetection.held, ← told.held, changed]; rfl

theorem again (told : Told policy first l c) (changed : policy.same (latest first l) c = false) :
    Told policy first (marked l) (latest first l) := by
  obtain ⟨told, held⟩ := told
  cases l with
  | nil => exact ⟨rfl, rfl⟩
  | cons x l =>
    obtain ⟨v, reported⟩ := x
    rw [List.map_cons, ChangeDetection.reports, List.cons.injEq, Prod.mk.injEq] at told
    rw [List.map_cons, ChangeDetection.held] at held
    have here : policy.same v c = false := changed
    -- had it been the same it would not have been held, and what was held would be the same now
    obtain ⟨-, rest⟩ := told
    have differs : policy.same v (policy.held first (l.map Prod.fst)) = false := by
      cases same : policy.same v (policy.held first (l.map Prod.fst)) with
      | false => rfl
      | true =>
        rw [if_pos same] at held
        rw [held, same] at here
        cases here
    exact call ⟨rest, rfl⟩ differs

end Told

namespace Engine

variable {e : Engine} {m : Move} {p : StoreId × String} {s : SubscriberId} {w : Watcher}

def putAt? (e : Engine) (m : Move) (p : StoreId × String) : Option Value :=
  (e.put? m).bind fun (t, key, v) => if (t, key) = p then some v else none

def tell (e : Engine) (m : Move) (p : StoreId × String) (s : SubscriberId) (l : List (Value × Bool)) :
    List (Value × Bool) :=
  match e.putAt? m p with
  | some v => (v, false) :: l
  | none => if (e.invocation? m s).isSome then marked l else l

end Engine

def History.puts (p : StoreId × String) : History → List Value
  | [] => []
  | (e, m) :: h => (e.putAt? m p).toList ++ puts p h

/-- The values that have been written to a property, the latest first, each with whether a watcher was called for it:
after it was written and before the next one was. -/
def History.tellings (p : StoreId × String) (s : SubscriberId) : History → List (Value × Bool)
  | [] => []
  | (e, m) :: h => e.tell m p s (tellings p s h)

namespace Engine

variable {e : Engine} {m : Move} {p : StoreId × String} {s : SubscriberId} {w : Watcher}

theorem written?_of_put? {t : StoreId} {key : String} {v : Value} (put : e.put? m = some (t, key, v)) :
    e.written? m = some (t, key) := by
  cases m with
  | step =>
    simp only [put?] at put
    split at put
    · next turn frames =>
      obtain ⟨⟨u, k⟩, typed, put⟩ := Option.bind_eq_some_iff.1 put
      obtain ⟨text, -, same⟩ := Option.map_eq_some_iff.1 put
      cases same
      simp only [written?, turn, frames]
      exact typed
    · cases put
  | write t' key' v' =>
    cases put
    rfl
  | writePath t' path v' =>
    obtain ⟨u, walk, same⟩ := Option.map_eq_some_iff.1 put
    cases same
    exact Option.map_eq_some_iff.2 ⟨t, walk, rfl⟩
  | _ => cases put

theorem put?_of_putAt? (put : e.putAt? m p = some v) : e.put? m = some (p.1, p.2, v) := by
  obtain ⟨⟨t, key, v'⟩, put, here⟩ := Option.bind_eq_some_iff.1 put
  dsimp only at here
  split at here
  · next same =>
    cases here
    rw [put, ← same]
  · cases here

theorem written?_of_putAt? (put : e.putAt? m p = some v) : e.written? m = some p :=
  written?_of_put? (put?_of_putAt? put)

theorem written?_ne (absent : e.putAt? m p = none) : e.written? m ≠ some p := by
  intro written
  obtain ⟨v, put⟩ := put?_of_written? written
  have present : e.putAt? m p = some v := by
    rw [putAt?, put]
    exact if_pos rfl
  cases absent.symm.trans present

/-- The value written last stands at the property, and the watcher is listed there. It has been told what it is to be
told, or the value written last is on its way to it. -/
structure Tells (policy : ChangeDetection) (first : Value) (p : StoreId × String) (s : SubscriberId)
    (l : List (Value × Bool)) (e : Engine) (c : Value) : Prop where
  stands : e.graph.property? p.1 p.2 = some (latest first l)
  listed : s ∈ e.graph.readers (.property p.1 p.2)
  told : Told policy first l c ∨ e.Awaits s ∧ ∃ v l', l = (v, false) :: l' ∧ Told policy first l' c

section Step

variable (wf : e.WellFormed) (allowed : e.Allows m) (alive : (e.perform m).graph.alive s)
  (hw : e.graph.watcher? s = some w) (tells : Tells w.policy first p s l e w.value)
include wf allowed alive hw tells

theorem tells_of_written (put : e.putAt? m p = some v) (apart : e.Settled) :
    (e.perform m).graph.watcher? s = some w ∧ Tells w.policy first p s ((v, false) :: l) (e.perform m) w.value := by
  have written := written?_of_putAt? put
  have exist := Graph.exists_of_watcher? hw
  have changes := changes_perform wf allowed
  have others : e.updated? m ≠ some s := by
    intro updated
    rw [written?_of_updated updated] at written
    cases written
  have there : p.1.index < e.graph.stores.size := Graph.exists_of_property? tells.stands
  obtain ⟨purpose, below, g, started, -, installed, -⟩ := pass_of_put? allowed (put?_of_putAt? put)
  refine ⟨(watcher?_of_not_updated wf allowed exist others).trans hw, ?_, ?_, .inr ⟨?_, v, l, rfl, ?_⟩⟩
  · rw [started]
    exact installed there
  · exact changes.readers tells.listed exist alive
  · exact awaits_of_written allowed written tells.listed (changes.alive exist alive)
  · -- nothing that was written earlier is still on its way
    rcases tells.told with told | ⟨awaits, -⟩
    · exact told
    · exact absurd awaits (apart.not_awaits s)

theorem tells_of_updated (updated : e.updated? m = some s) (found : e.graph.current w = latest first l) :
    ∃ c, (e.perform m).graph.watcher? s = some { w with value := c } ∧
      Tells w.policy first p s (if (e.invocation? m s).isSome then marked l else l) (e.perform m) c := by
  have changes := changes_perform wf allowed
  have called := invocation?_eq updated hw
  have unwritten : e.written? m ≠ some p := by
    rw [written?_of_updated updated]
    nofun
  have stands := changes.property tells.stands unwritten
  have listed := changes.readers tells.listed (Graph.exists_of_watcher? hw) alive
  rw [found] at called
  rcases watcher?_of_updated allowed updated hw with ⟨same, kept⟩ | ⟨changed, renewed⟩
  · rw [found] at same
    rw [if_pos same] at called
    rw [called]
    refine ⟨w.value, kept, stands, listed, .inl ?_⟩
    rcases tells.told with told | ⟨-, v, l', rfl, told⟩
    · exact told
    · exact told.quiet same
  · rw [found] at changed renewed
    rw [if_neg (by rw [changed]; exact Bool.false_ne_true)] at called
    rw [called]
    refine ⟨_, renewed, ?_, listed, .inl ?_⟩
    · cases l <;> exact stands
    · rcases tells.told with told | ⟨-, v, l', rfl, told⟩
      · exact told.again changed
      · exact told.call changed

theorem tells_perform (apart : e.written? m = some p → e.Settled)
    (found : e.updated? m = some s → e.graph.current w = latest first l) :
    ∃ c, (e.perform m).graph.watcher? s = some { w with value := c } ∧
      Tells w.policy first p s (e.tell m p s l) (e.perform m) c := by
  rw [tell]
  cases put : e.putAt? m p with
  | some v => exact ⟨w.value, tells_of_written wf allowed alive hw tells put (apart (written?_of_putAt? put))⟩
  | none =>
    by_cases updated : e.updated? m = some s
    · exact tells_of_updated wf allowed alive hw tells updated (found updated)
    · have exist := Graph.exists_of_watcher? hw
      have changes := changes_perform wf allowed
      rw [invocation?_of_not_updated updated]
      refine ⟨w.value, (watcher?_of_not_updated wf allowed exist updated).trans hw, ?_, ?_, ?_⟩
      · exact changes.property tells.stands (written?_ne put)
      · exact changes.readers tells.listed exist alive
      · rcases tells.told with told | ⟨awaits, due⟩
        · exact .inl told
        · rcases awaits_perform allowed awaits with awaits | here | gone
          · exact .inr ⟨awaits, due⟩
          · exact absurd here updated
          · rw [changes.alive exist alive] at gone
            cases gone

end Step

end Engine

@[simp] theorem History.map_fst_tellings (h : History) (p : StoreId × String) (s : SubscriberId) :
    (h.tellings p s).map Prod.fst = h.puts p := by
  induction h with
  | nil => rfl
  | cons x h ih =>
    obtain ⟨e, m⟩ := x
    rw [tellings, Engine.tell, puts]
    cases e.putAt? m p with
    | some v => exact congrArg (v :: ·) ih
    | none =>
      rw [Option.toList_none, List.nil_append, ← ih]
      dsimp only
      split
      · exact map_fst_marked _
      · rfl

namespace Run

variable {h₁ h₀ : History} {e₀ e : Engine} {m₀ : Move} {s : SubscriberId} {w : Watcher} {t : StoreId}

theorem tells_since (run : Run (h₁ ++ (e₀, m₀) :: h₀) e) (alive : e.graph.alive s)
    (hw : (e₀.perform m₀).graph.watcher? s = some w)
    (begun : Engine.Tells w.policy w.value (t, w.path.last) s [] (e₀.perform m₀) w.value)
    (leads : ∀ x ∈ h₁, x.1.graph.walk? (x.1.graph.origin w) w.path.parents = some t)
    (apart : ∀ x ∈ h₁, x.1.written? x.2 = some (t, w.path.last) → x.1.Settled) :
    ∃ c, e.graph.watcher? s = some { w with value := c } ∧
      Engine.Tells w.policy w.value (t, w.path.last) s (h₁.tellings (t, w.path.last) s) e c := by
  obtain ⟨-, -, run₀⟩ := run.of_move
  refine run₀.along (P := fun h e => e.graph.alive s → ∃ c, e.graph.watcher? s = some { w with value := c } ∧
    Engine.Tells w.policy w.value (t, w.path.last) s (h.tellings (t, w.path.last) s) e c) run
    (fun _ => ⟨w.value, hw, begun⟩) ?_ alive
  intro h e m part earlier allowed before alive
  have wf := earlier.wellFormed
  have mem : (e, m) ∈ h₁ := part.subset List.mem_cons_self
  have exist : s.index < e.graph.subscribers.size :=
    Nat.lt_of_lt_of_le (Graph.exists_of_watcher? hw) (run₀.alive_since earlier).1
  obtain ⟨c, hw', tells⟩ := before ((Engine.changes_perform wf allowed).alive exist alive)
  apply Engine.tells_perform (w := { w with value := c }) wf allowed alive hw' tells
  · exact apart _ mem
  · exact fun _ => Graph.readAlong_of_walk? (leads _ mem) tells.stands

end Run

end

structure Trial where
  before : History
  start : Engine
  model : ModelId
  path : Path
  callback : CallbackId
  later : History
  ended : Engine

namespace Trial

variable {l k t : Trial} {s u : StoreId}

def make (t : Trial) : Engine × Move := (t.start, .createWatcher t.model t.path t.callback)

def watcher (t : Trial) : SubscriberId := ⟨t.start.graph.subscribers.size⟩

def policy (t : Trial) : ChangeDetection := (t.start.graph.model t.model).options.changeDetection

def first (t : Trial) : Value := t.start.graph.valueAt (t.start.graph.model t.model).data t.path

def values (t : Trial) (s : StoreId) : List Value := t.later.puts (s, t.path.last)

def tellings (t : Trial) (s : StoreId) : List (Value × Bool) := t.later.tellings (s, t.path.last) t.watcher

/-- The watcher stays alive, and its path always leads to the same property, which exists already. No callback writes
to this property. In the end no notification is under way. -/
structure Watches (t : Trial) (s : StoreId) : Prop where
  run : Run (t.later ++ t.make :: t.before) t.ended
  unique : t.ended.UniqueIdentities
  alive : t.ended.graph.alive t.watcher
  leads : ∀ x ∈ t.later ++ [t.make], x.1.graph.walk? (x.1.graph.model t.model).data t.path.parents = some s
  found : t.start.graph.hasKey s t.path.last = true
  apart : ∀ x ∈ t.later, x.1.written? x.2 = some (s, t.path.last) → x.1.Settled
  settled : t.ended.Settled

theorem gains (t : Trial) : Graph.Gains t.start.graph (t.start.perform t.make.2).graph t.watcher
    (t.start.graph.newWatcher t.model t.path (.call t.callback)) :=
  Graph.gains_createWatcher t.start.graph t.model t.path (.call t.callback)

namespace Watches

theorem begun (watches : t.Watches s) : Engine.Tells t.policy t.first (s, t.path.last) t.watcher []
    (t.start.perform t.make.2) t.first := by
  obtain ⟨run₀, allowed, run₁⟩ := watches.run.of_move
  have unique := run₁.unique_since watches.run watches.unique
  have walk : t.start.graph.walk? (t.start.graph.model t.model).data t.path.parents = some s :=
    watches.leads _ (List.mem_append_right _ List.mem_cons_self)
  obtain ⟨v, stands⟩ := Option.isSome_iff_exists.1 ((Graph.hasKey_eq _ _ _).symm.trans watches.found)
  have first : t.first = v := Graph.readAlong_of_walk? walk stands
  have current := Engine.current_of_fresh run₀.wellFormed unique (.of_gains t.gains ⟨allowed.2, rfl⟩) (Nat.le_refl _)
    t.gains.watcher?_new
  refine ⟨?_, ?_, .inl ⟨rfl, rfl⟩⟩
  · rw [latest, List.map_nil, List.headD_nil, first, ← stands]
    exact t.gains.property s t.path.last
  · exact current.listed _ (Graph.mem_reads_iff.2 ⟨t.path.parents, List.prefix_refl _, walk, watches.found⟩)

theorem tellings_eq (watches : t.Watches s) : t.tellings s = t.policy.reports t.first (t.values s) := by
  obtain ⟨c, -, tells⟩ := watches.run.tells_since watches.alive t.gains.watcher?_new watches.begun
    (fun x mem => watches.leads x (List.mem_append_left _ mem)) watches.apart
  rw [values, ← History.map_fst_tellings _ _ t.watcher]
  -- nothing is on its way in the end
  rcases tells.told with told | ⟨awaits, -⟩
  · exact told.told
  · exact absurd awaits (watches.settled.not_awaits _)

end Watches

/-- A watcher reports the values that its policy tells from the one that it holds by then. Of the same values a loose
watcher reports no other ones than a strict watcher does. -/
theorem loose_reports_less (loose : l.policy = .loose) (strict : k.policy = .strict) (hl : l.Watches s)
    (hk : k.Watches u) (first : l.first = k.first) (values : l.values s = k.values u) :
    l.tellings s = ChangeDetection.loose.reports l.first (l.values s) ∧
      k.tellings u = ChangeDetection.strict.reports k.first (k.values u) ∧
      List.Forall₂ (fun x y => x.1 = y.1 ∧ (x.2 = true → y.2 = true)) (l.tellings s) (k.tellings u) := by
  have told := hl.tellings_eq
  have told' := hk.tellings_eq
  rw [loose] at told
  rw [strict] at told'
  refine ⟨told, told', ?_⟩
  rw [told, told', first, values]
  exact ChangeDetection.reports_loose _ _

def writing (values : List (Value × Bool)) : List Move := values.flatMap fun (v, called) =>
  .write ⟨0⟩ "n" v :: .step :: (if called then [.resume (.ok ())] else []) ++ [.step, .step]

def setting (policy : ChangeDetection) : List Move :=
  [.createStore [("n", .number (.ofInt 0))],
    .createModel { data := ⟨0⟩, methods := [], options := { changeDetection := policy } }]

def ofWriting (policy : ChangeDetection) (values : List (Value × Bool)) : Trial :=
  let start := Engine.after {} (setting policy)
  let made := start.perform (.createWatcher ⟨0⟩ ⟨[], "n"⟩ ⟨0⟩)
  { before := Engine.trace {} (setting policy), start, model := ⟨0⟩, path := ⟨[], "n"⟩, callback := ⟨0⟩,
    later := made.trace (writing values), ended := made.after (writing values) }

theorem run_ofWriting {policy : ChangeDetection} {values : List (Value × Bool)}
    (set : Engine.admits {} (setting policy) = true)
    (made : (Engine.after {} (setting policy)).Allows (.createWatcher ⟨0⟩ ⟨[], "n"⟩ ⟨0⟩))
    (written :
      ((Engine.after {} (setting policy)).perform (.createWatcher ⟨0⟩ ⟨[], "n"⟩ ⟨0⟩)).admits (writing values)) :
    Run ((ofWriting policy values).later ++ (ofWriting policy values).make :: (ofWriting policy values).before)
      (ofWriting policy values).ended := ((Run.of_admits set).move made).after _ written

/-- For a loose watcher the texts and booleans here are the numbers before them. -/
def tolerant : Trial := ofWriting .loose
  [(.string "0", false), (.bool false, false), (.number (.ofInt 1), true), (.string "1", false), (.number .nan, true)]

def exacting : Trial := ofWriting .strict
  [(.string "0", true), (.bool false, true), (.number (.ofInt 1), true), (.string "1", true), (.number .nan, true)]

theorem tolerant_watches : tolerant.Watches ⟨0⟩ where
  run := run_ofWriting (by decide +kernel) (by decide +kernel) (by decide +kernel)
  unique := by decide +kernel
  alive := by decide +kernel
  leads := by decide +kernel
  found := by decide +kernel
  apart := by decide +kernel
  settled := by decide +kernel

theorem exacting_watches : exacting.Watches ⟨0⟩ where
  run := run_ofWriting (by decide +kernel) (by decide +kernel) (by decide +kernel)
  unique := by decide +kernel
  alive := by decide +kernel
  leads := by decide +kernel
  found := by decide +kernel
  apart := by decide +kernel
  settled := by decide +kernel

theorem exacting_loose_reports_less :
    tolerant.policy = .loose ∧ exacting.policy = .strict ∧ tolerant.Watches ⟨0⟩ ∧ exacting.Watches ⟨0⟩ ∧
      tolerant.first = exacting.first ∧ tolerant.values ⟨0⟩ = exacting.values ⟨0⟩ ∧
      (tolerant.tellings ⟨0⟩).map Prod.snd = [true, false, true, false, false] ∧
      (exacting.tellings ⟨0⟩).map Prod.snd = [true, true, true, true, true] ∧
      List.Forall₂ (fun x y => x.1 = y.1 ∧ (x.2 = true → y.2 = true)) (tolerant.tellings ⟨0⟩)
        (exacting.tellings ⟨0⟩) := by
  have first : tolerant.first = exacting.first := by decide +kernel
  have values : tolerant.values ⟨0⟩ = exacting.values ⟨0⟩ := by decide +kernel
  obtain ⟨-, -, less⟩ := loose_reports_less rfl rfl tolerant_watches exacting_watches first values
  exact ⟨rfl, rfl, tolerant_watches, exacting_watches, first, values, by decide +kernel, by decide +kernel, less⟩

end Trial

end DataBinding
