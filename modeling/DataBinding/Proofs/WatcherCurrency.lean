import DataBinding.Proofs.KeptSubscribers
import DataBinding.Proofs.StrictEquality

namespace DataBinding

open DataBinding.Graph (Changes)

def Graph.Holds (g : Graph) (w : Watcher) : Prop :=
  g.current w = w.value ∨ w.policy.same (g.current w) w.value = true

instance (g : Graph) (w : Watcher) : Decidable (g.Holds w) := inferInstanceAs (Decidable (_ ∨ _))

def History.lastSeen? (h : History) (s : SubscriberId) : Option Graph :=
  (h.find? fun (e, m) => e.evaluates m s).map fun (e, _) => e.graph

namespace Engine

variable {e e' : Engine} {m : Move} {s : SubscriberId} {w w' : Watcher} {g : Graph}

def Awaits (e : Engine) (s : SubscriberId) : Prop := ∃ f ∈ e.frames, s ∈ f.pending

theorem Awaits.mono (h : e.Awaits s) (frames : ∀ f ∈ e.frames, f ∈ e'.frames) : e'.Awaits s := by
  obtain ⟨f, hf, hs⟩ := h
  exact ⟨f, frames f hf, hs⟩

theorem awaits_cons {frame : Frame} {frames : List Frame} {turn : Turn} :
    Awaits ⟨g, frame :: frames, turn⟩ s ↔ s ∈ frame.pending ∨ Awaits ⟨g, frames, turn⟩ s := by
  simp [Awaits]

theorem awaits_congr (h : e'.frames = e.frames) : e'.Awaits s ↔ e.Awaits s := by
  rw [Awaits, Awaits, h]

theorem frames_hear (e : Engine) (event : Event) (listener : Listener) :
    ∀ f ∈ e.frames, f ∈ (e.hear event listener).frames := by
  intro f hf
  rcases hear_cases e event listener with ⟨⟨turn, h⟩, -⟩
    | ⟨m, path, r, text, -, -, -, ⟨-, -, h⟩ | ⟨t, -, -, h⟩⟩
  · rw [h]
    exact hf
  · rw [h]
    exact hf
  · rw [h]
    exact List.mem_cons_of_mem _ hf

theorem awaits_steps (h : Steps e e') (awaits : e.Awaits s) :
    e'.Awaits s ∨ e.updated? .step = some s ∨ e.graph.alive s = false := by
  cases h with
  | skip gone =>
    rw [awaits_cons] at awaits ⊢
    rcases awaits with hs | hs
    · rcases List.mem_cons.1 hs with rfl | hs
      · exact .inr (.inr gone)
      · exact .inl (.inl hs)
    · exact .inl (.inr hs)
  | update alive =>
    rw [awaits_cons] at awaits
    rw [awaits_congr (frames_update _ _), awaits_cons]
    rcases awaits with hs | hs
    · rcases List.mem_cons.1 hs with rfl | hs
      · exact .inr (.inl (by simp only [updated?, alive, if_true]))
      · exact .inl (.inl hs)
    · exact .inl (.inr hs)
  | hear =>
    left
    rw [awaits_cons] at awaits
    rcases awaits with hs | hs
    · cases hs
    · exact hs.mono fun f hf => frames_hear _ _ _ f (List.mem_cons_of_mem _ hf)
  | rest => exact .inl awaits
  | accept => exact .inl awaits
  | acceptPass =>
    rw [awaits_cons] at awaits ⊢
    exact .inl awaits
  | acceptDelivery =>
    rw [awaits_cons] at awaits ⊢
    exact .inl awaits
  | _ =>
    rw [awaits_cons] at awaits
    rcases awaits with hs | hs
    · cases hs
    · exact .inl hs

theorem awaits_perform (allowed : e.Allows m) (awaits : e.Awaits s) :
    (e.perform m).Awaits s ∨ e.updated? m = some s ∨ e.graph.alive s = false := by
  have pushed (f : Frame) (g : Graph) (turn : Turn) : Awaits ⟨g, f :: e.frames, turn⟩ s :=
    awaits.mono fun _ h => List.mem_cons_of_mem _ h
  cases m with
  | step => exact awaits_steps (steps_of_allows allowed) awaits
  | write t key v => exact .inl (pushed _ _ _)
  | writePath t path v =>
    left
    simp only [perform, writePath]
    cases e.graph.walk? t path.parents with
    | none => exact awaits
    | some t => exact pushed _ _ _
  | notify r => exact .inl (pushed _ _ _)
  | run t =>
    left
    rw [perform, run, awaits_congr (frames_update _ _)]
    exact pushed _ _ _
  | call m name event =>
    left
    simp only [perform, call]
    cases (e.graph.model m).methods.get? name with
    | none => exact awaits
    | some callback => exact pushed _ _ _
  | dispatch n event => exact .inl (pushed _ _ _)
  | input n text =>
    left
    simp only [perform, input]
    cases e.graph.forest.setValue n text with
    | error err => exact awaits
    | ok forest => exact pushed _ _ _
  | _ => exact .inl awaits

theorem awaits_startWrite {t : StoreId} {key : String} (purpose : Purpose) (v : Value)
    (mem : s ∈ e.graph.readers (.property t key)) (alive : e.graph.alive s) :
    (e.startWrite purpose t key v).Awaits s := by
  refine ⟨_, List.mem_cons_self, ?_⟩
  apply Graph.mem_live.2
  exact ⟨by rwa [Graph.readers_install], alive⟩

theorem awaits_of_written (allowed : e.Allows m) {t : StoreId} {key : String}
    (written : e.written? m = some (t, key)) (mem : s ∈ e.graph.readers (.property t key))
    (alive : e.graph.alive s) : (e.perform m).Awaits s := by
  cases m with
  | write t' key' v =>
    simp only [written?, Option.some.injEq, Prod.mk.injEq] at written
    obtain ⟨rfl, rfl⟩ := written
    exact awaits_startWrite _ _ mem alive
  | writePath t' path v =>
    simp only [written?] at written
    simp only [perform, writePath]
    cases hwalk : e.graph.walk? t' path.parents with
    | none => rw [hwalk] at written; cases written
    | some t'' =>
      rw [hwalk] at written
      cases written
      exact awaits_startWrite _ _ mem alive
  | step =>
    have steps := steps_of_allows allowed
    generalize e.perform .step = e' at steps
    cases steps with
    | @hear g n event listener pending first frames =>
      rcases hear_cases ⟨g, .delivery n event pending first :: frames, .next⟩ event listener with
        ⟨-, h⟩ | ⟨m, path, r, text, -, -, -, ⟨-, h, -⟩ | ⟨t', -, h, hear⟩⟩
      · rw [written?] at written
        cases h.symm.trans written
      · rw [written?] at written
        cases h.symm.trans written
      · rw [written?] at written
        cases h.symm.trans written
        rw [hear]
        apply awaits_startWrite
        · rwa [Graph.readers_congr rfl rfl]
        · exact alive
    | _ => cases written
  | _ => cases written

def UniqueIdentities (e : Engine) : Prop :=
  ∀ s t : SubscriberId, s.index < e.graph.subscribers.size → t.index < e.graph.subscribers.size →
    e.graph.identity s = e.graph.identity t → s = t

instance (e : Engine) : Decidable e.UniqueIdentities :=
  decidable_of_iff (∀ i < e.graph.subscribers.size, ∀ j < e.graph.subscribers.size,
      e.graph.identity ⟨i⟩ = e.graph.identity ⟨j⟩ → i = j)
    ⟨fun h s t hs ht hi => congrArg SubscriberId.mk (h s.index hs t.index ht hi),
      fun h i hi j hj same => congrArg SubscriberId.index (h ⟨i⟩ ⟨j⟩ hi hj same)⟩

theorem UniqueIdentities.earlier (wf : e.WellFormed) (allowed : e.Allows m)
    (unique : (e.perform m).UniqueIdentities) : e.UniqueIdentities := by
  have changes := changes_perform wf allowed
  intro s t hs ht hi
  apply unique s t
  · exact Nat.lt_of_lt_of_le hs changes.subscribers
  · exact Nat.lt_of_lt_of_le ht changes.subscribers
  · rw [changes.identity hs, changes.identity ht, hi]

theorem UniqueIdentities.distinct (unique : e.UniqueIdentities) (wf : e.WellFormed)
    (hs : s.index < e.graph.subscribers.size) : e.graph.Distinct s :=
  fun _ _ ht hi => unique _ _ (wf.readers ht) hs hi

/-- What remains true of a watcher after its evaluation in `g`: it is listed wherever it read there, it holds
what it found there, and either an update is due or nothing that it read has changed. -/
structure Current (g : Graph) (e : Engine) (s : SubscriberId) (w : Watcher) : Prop where
  origin : e.graph.origin w = g.origin w
  listed : ∀ p ∈ g.reads (g.origin w) w.path, s ∈ e.graph.readers (.property p.1 p.2)
  held : g.Holds w
  kept : e.Awaits s ∨ ∀ p ∈ g.reads (g.origin w) w.path, e.graph.property? p.1 p.2 = g.property? p.1 p.2

theorem current_of_fresh (wf : e.WellFormed) (unique : (e.perform m).UniqueIdentities)
    (grows : Graph.Grows e.graph (e.perform m).graph) (hs : e.graph.subscribers.size ≤ s.index)
    (hw : (e.perform m).graph.watcher? s = some w) : Current e.graph (e.perform m) s w := by
  have exist := Graph.exists_of_watcher? hw
  obtain ⟨w', fresh⟩ := grows.fresh hs exist
  cases fresh.unique hw
  refine ⟨Graph.origin_congr grows.models w, ?_, .inl fresh.held.symm, .inr fun _ _ => grows.property _ _⟩
  apply fresh.listed
  · exact fun _ _ ht => wf.readers ht
  · intro t ht hi
    -- a name that is new is nobody's identity yet
    have identity : (e.perform m).graph.identity s = s := by rw [Graph.identity, fresh.made]
    have same : t = s := by
      apply unique t s (Nat.lt_of_lt_of_le ht grows.size) exist
      rw [grows.identity ht, hi, identity]
    subst same
    exact Nat.lt_irrefl _ (Nat.lt_of_lt_of_le ht hs)

theorem Changes.origin {written : Option (StoreId × String)} {updated : Option SubscriberId} {g g' : Graph}
    (h : Changes written updated g g') (hm : w.model.index < g.models.size) : g'.origin w = g.origin w := by
  rw [Graph.origin, h.model hm, Graph.origin]

theorem distinct_retain (distinct : g.Distinct s) : (g.retain s).Distinct s := by
  have identity (t : SubscriberId) : (g.retain s).identity t = g.identity t := by
    rw [Graph.identity, Graph.retain, Graph.subscriber_modifySubscriber]
    split <;> rfl
  intro r t ht hi
  rw [identity, identity] at hi
  apply distinct r t _ hi
  cases r <;> exact ht

theorem current_of_updated (wf : e.WellFormed) (unique : e.UniqueIdentities) (allowed : e.Allows m)
    (updated : e.updated? m = some s) (hw : e.graph.watcher? s = some w)
    (hw' : (e.perform m).graph.watcher? s = some w') : Current e.graph (e.perform m) s w' := by
  have origin := Changes.origin (changes_perform wf allowed) (wf.watchers hw).model
  have watched := watcher?_of_updated allowed updated hw
  have distinct := distinct_retain (unique.distinct wf (Graph.exists_of_watcher? hw))
  obtain ⟨-, frames, turn, h⟩ := perform_of_updated allowed updated
  let e₁ : Engine := ⟨e.graph.retain s, frames, turn⟩
  rw [h] at hw' origin watched ⊢
  have property (t : StoreId) (k : String) : e₁.graph.property? t k = e.graph.property? t k := rfl
  have listed : ∀ p ∈ e.graph.reads (e.graph.origin w) w.path,
      s ∈ (update e₁ s).graph.readers (.property p.1 p.2) := by
    intro p hp
    apply listed_update (e := e₁) ((watcher?_retain _ _ _).trans hw) distinct
    rw [Graph.reads_congr property]
    exact hp
  have kept (p : StoreId × String) := property?_update e₁ s p.1 p.2
  rcases watched with ⟨same, hu⟩ | ⟨-, hu⟩
  · cases hw'.symm.trans hu
    exact ⟨origin, listed, .inr same, .inr fun p _ => kept p⟩
  · cases hw'.symm.trans hu
    exact ⟨origin, listed, .inl rfl, .inr fun p _ => kept p⟩

theorem Current.perform (current : Current g e s w) (wf : e.WellFormed) (allowed : e.Allows m)
    (hw : e.graph.watcher? s = some w) (alive : (e.perform m).graph.alive s)
    (others : e.updated? m ≠ some s) :
    Current g (e.perform m) s w := by
  have changes := changes_perform wf allowed
  have exist := Graph.exists_of_watcher? hw
  have alive₀ := changes.alive exist alive
  refine ⟨(Changes.origin changes (wf.watchers hw).model).trans current.origin,
    fun p hp => changes.readers (current.listed p hp) exist alive, current.held, ?_⟩
  rcases current.kept with awaits | kept
  · left
    rcases awaits_perform allowed awaits with awaits | updated | gone
    · exact awaits
    · exact absurd updated others
    · rw [gone] at alive₀
      cases alive₀
  · by_cases written : ∃ p ∈ g.reads (g.origin w) w.path, e.written? m = some p
    · obtain ⟨p, hp, written⟩ := written
      exact .inl (awaits_of_written allowed written (current.listed p hp) alive₀)
    · right
      intro p hp
      obtain ⟨v, hv⟩ := Option.isSome_iff_exists.1 (Graph.property?_of_mem_readsAlong hp)
      rw [hv]
      apply changes.property
      · rw [kept p hp, hv]
      · exact fun h => written ⟨p, hp, h⟩

end Engine

@[simp] theorem History.lastSeen?_cons (h : History) (e : Engine) (m : Move) (s : SubscriberId) :
    History.lastSeen? ((e, m) :: h) s = if e.evaluates m s then some e.graph else h.lastSeen? s := by
  simp only [History.lastSeen?, List.find?_cons]
  cases e.evaluates m s <;> rfl

theorem Engine.Settled.not_awaits {e : Engine} (settled : e.Settled) (s : SubscriberId) : ¬ e.Awaits s := by
  rintro ⟨f, hf, hs⟩
  have := settled f hf
  cases f with
  | pass purpose running pending failures => cases this
  | _ => cases hs

theorem Engine.Current.of_settled {g : Graph} {e : Engine} {s : SubscriberId} {w : Watcher}
    (current : Current g e s w) (settled : e.Settled)
    (missed : ∀ p ∈ g.missing? (g.origin w) w.path, ¬ e.graph.hasKey p.1 p.2 = true) :
    e.graph.Holds w := by
  have kept : ∀ p ∈ g.reads (g.origin w) w.path, e.graph.property? p.1 p.2 = g.property? p.1 p.2 := by
    rcases current.kept with awaits | kept
    · exact absurd awaits (settled.not_awaits s)
    · exact kept
  have same : e.graph.current w = g.current w := by
    rw [Graph.current, current.origin]
    apply Graph.valueAt_stable kept
    intro p hp
    exact Graph.property?_eq_none (missed p hp)
  rw [Graph.Holds, same]
  exact current.held

namespace Run

variable {h : History} {e : Engine} {s : SubscriberId} {w : Watcher}

theorem current (run : Run h e) (unique : e.UniqueIdentities) (alive : e.graph.alive s)
    (hw : e.graph.watcher? s = some w) : ∃ g, h.lastSeen? s = some g ∧ Engine.Current g e s w := by
  refine run.of_watcher (P := fun h e w => e.UniqueIdentities → e.graph.alive s →
    ∃ g, h.lastSeen? s = some g ∧ Engine.Current g e s w) hw ?made ?kept unique alive
  case made =>
    intro h e m w run allowed late new hw unique alive
    rw [History.lastSeen?_cons]
    refine ⟨e.graph, by simp [Engine.evaluates, new], ?_⟩
    have exist := Graph.exists_of_watcher? hw
    rcases Engine.grows_perform run.wellFormed allowed with size | ⟨identity, callback, rfl⟩ | grows
    · rw [size] at exist
      exact absurd exist (Nat.not_lt_of_le late)
    · have old := Graph.exists_of_watcher? (Graph.watcher?_of_createSubscriber hw)
      exact absurd old (Nat.not_lt_of_le late)
    · exact Engine.current_of_fresh run.wellFormed unique grows late hw
  case kept =>
    intro h e m w w' run allowed hs old hw hw' same before unique alive
    have wf := run.wellFormed
    have unique₀ := unique.earlier wf allowed
    rw [History.lastSeen?_cons]
    by_cases updated : e.updated? m = some s
    · -- evaluated by this move
      refine ⟨e.graph, ?_, Engine.current_of_updated wf unique₀ allowed updated hw hw'⟩
      simp [Engine.evaluates, updated]
    · -- evaluated earlier, and not touched by this move
      rw [Engine.watcher?_of_not_updated wf allowed hs updated, hw] at hw'
      cases hw'
      obtain ⟨g, seen, current⟩ := before unique₀ ((Engine.changes_perform wf allowed).alive hs alive)
      refine ⟨g, ?_, current.perform wf allowed hw alive updated⟩
      simp [Engine.evaluates, updated, old, seen]

/-- A watcher is listed wherever its latest evaluation has read. While no notification is under way it holds
what its path leads to, or something that is the same to it, unless a key that this evaluation has missed
exists by now. -/
theorem watcher_current (run : Run h e) (unique : e.UniqueIdentities) (alive : e.graph.alive s)
    (hw : e.graph.watcher? s = some w) :
    ∃ g, h.lastSeen? s = some g ∧
      (∀ p ∈ g.reads (g.origin w) w.path, s ∈ e.graph.readers (.property p.1 p.2)) ∧
      (e.Settled → e.graph.Holds w ∨
        ∃ t key, g.missing? (g.origin w) w.path = some (t, key) ∧ e.graph.hasKey t key = true) := by
  obtain ⟨g, seen, current⟩ := run.current unique alive hw
  refine ⟨g, seen, current.listed, ?_⟩
  intro settled
  by_cases missed : ∃ p ∈ g.missing? (g.origin w) w.path, e.graph.hasKey p.1 p.2 = true
  · obtain ⟨⟨t, key⟩, missing, found⟩ := missed
    exact .inr ⟨t, key, missing, found⟩
  · left
    apply current.of_settled settled
    exact fun p hp found => missed ⟨p, hp, found⟩

/-- The object that two watchers look into is replaced, and the callback of the first one writes to the new
object before the second one has seen it. -/
def replacing : List Move :=
  [.createStore [("a", .null)], .createStore [("o", .object ⟨0⟩)],
    .createModel { data := ⟨1⟩, methods := [], options := {} }, .createWatcher ⟨0⟩ ⟨["o"], "a"⟩ ⟨0⟩,
    .createWatcher ⟨0⟩ ⟨["o"], "a"⟩ ⟨1⟩, .createStore [("a", .bool false)], .write ⟨1⟩ "o" (.object ⟨2⟩),
    .step, .write ⟨2⟩ "a" (.bool true), .step, .resume (.error .configuration), .step, .step,
    .resume (.ok ()), .step, .step, .resume (.ok ()), .step, .step]

def replaced : Engine := Engine.after {} replacing

theorem replaced_watcher_current :
    ∃ w, replaced.graph.watcher? ⟨1⟩ = some w ∧ replaced.Settled ∧ ∃ g,
      (Engine.trace {} replacing).lastSeen? ⟨1⟩ = some g ∧
        (∀ p ∈ g.reads (g.origin w) w.path, ⟨1⟩ ∈ replaced.graph.readers (.property p.1 p.2)) ∧
        (replaced.Settled → replaced.graph.Holds w ∨
          ∃ t key, g.missing? (g.origin w) w.path = some (t, key) ∧ replaced.graph.hasKey t key = true) := by
  have run : Run (Engine.trace {} replacing) replaced := Run.of_admits (by decide +kernel)
  have unique : replaced.UniqueIdentities := by decide +kernel
  have alive : replaced.graph.alive ⟨1⟩ = true := by decide +kernel
  have settled : replaced.Settled := by decide +kernel
  have found : (replaced.graph.watcher? ⟨1⟩).isSome = true := by decide +kernel
  obtain ⟨w, hw⟩ := Option.isSome_iff_exists.1 found
  exact ⟨w, hw, settled, run.watcher_current unique alive hw⟩

end Run

end DataBinding
