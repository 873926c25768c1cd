import DataBinding.Proofs.DocumentFrame
import DataBinding.Proofs.WatcherCurrency

namespace DataBinding

def Graph.fillers (g : Graph) (slot : Slot) : List SubscriberId :=
  ((List.range g.subscribers.size).map SubscriberId.mk).filter fun s =>
    g.alive s && (g.watcher? s).any fun w => w.reaction.slot? = some slot

def History.graphs (h : History) (e : Engine) : List Graph := e.graph :: h.map fun x => x.1.graph

/-- Nobody else fills the slot of a watcher, the slot is there, and the path of the watcher misses no key. -/
structure Graph.Serves (g : Graph) (s : SubscriberId) (w : Watcher) (slot : Slot) : Prop where
  alone : ∀ t ∈ g.fillers slot, t = s
  there : g.forest.shows slot ≠ none
  whole : g.missing? (g.origin w) w.path = none

instance (g : Graph) (s : SubscriberId) (w : Watcher) (slot : Slot) : Decidable (g.Serves s w slot) :=
  decidable_of_iff ((∀ t ∈ g.fillers slot, t = s) ∧ g.forest.shows slot ≠ none ∧
    g.missing? (g.origin w) w.path = none)
    ⟨fun ⟨alone, there, whole⟩ => ⟨alone, there, whole⟩, fun h => ⟨h.alone, h.there, h.whole⟩⟩

theorem Graph.mem_fillers {g : Graph} {s : SubscriberId} {w : Watcher} {slot : Slot} (alive : g.alive s)
    (hw : g.watcher? s = some w) (target : w.reaction.slot? = some slot) : s ∈ g.fillers slot := by
  apply List.mem_filter.2
  constructor
  · apply List.mem_map.2
    exact ⟨s.index, List.mem_range.2 (exists_of_watcher? hw), rfl⟩
  · simp [alive, hw, target]

namespace Engine

variable {e : Engine} {m : Move} {s : SubscriberId} {w w' : Watcher} {slot : Slot}

theorem shown_init {c : CompilerId} (wf : e.WellFormed) (allowed : e.Allows (.init c))
    (new : e.graph.subscribers.size ≤ s.index) (hw : (e.perform (.init c)).graph.watcher? s = some w)
    (target : w.reaction.slot? = some slot) (alone : ∀ t ∈ (e.perform (.init c)).graph.fillers slot, t = s)
    (there : (∃ n, slot = .value n) ∨ (e.perform (.init c)).graph.forest.shows slot ≠ none) :
    (e.perform (.init c)).graph.forest.shows slot = some w.value.text := by
  have extended := (Graph.initializes_init (wf.compilers allowed.2.1)).extended
  rcases extended.renders slot with ⟨absent, other⟩ | ⟨-, none⟩ | ⟨t, w', ht, hw', htarget, shows⟩
  · rcases there with ⟨n, same⟩ | there
    · exact absurd same (other n)
    · exact absurd absent there
  · exact absurd target (none s w new hw)
  · obtain ⟨w'', fresh⟩ := extended.grows.fresh ht (Graph.exists_of_watcher? hw')
    have alive : (e.perform (.init c)).graph.alive t := by
      rw [Graph.alive, perform, fresh.made]
      rfl
    have same : t = s := alone t (Graph.mem_fillers alive hw' htarget)
    subst same
    cases hw.symm.trans hw'
    exact shows

theorem filled_of_updated (allowed : e.Allows m) (updated : e.updated? m = some s)
    (hw : e.graph.watcher? s = some w) (target : w.reaction.slot? = some slot)
    (takes : e.graph.forest.takes slot) :
    (w.policy.same (e.graph.current w) w.value = true ∧ (e.perform m).graph.forest = e.graph.forest ∧
        (e.perform m).graph.records = e.graph.records) ∨
      (w.policy.same (e.graph.current w) w.value = false ∧
        (e.perform m).graph.forest.shows slot = some (e.graph.current w).text ∧
        (e.perform m).graph.records = (Graph.noted e.graph (e.graph.current w) w.reaction).records) := by
  obtain ⟨-, frames, turn, h⟩ := perform_of_updated allowed updated
  have hw₁ := (watcher?_retain e.graph s s).trans hw
  have current := current_retain e.graph s w
  have enrolled := Graph.enrolled_evaluate (e.graph.retain s) s w
  have updates := updates_update ⟨e.graph.retain s, frames, turn⟩ s
  rw [h]
  generalize update ⟨e.graph.retain s, frames, turn⟩ s = e' at updates
  cases updates with
  | notified role => rw [Graph.watcher?, role] at hw₁; cases hw₁
  | same watcher same =>
    cases hw₁.symm.trans watcher
    rw [current] at same
    exact .inl ⟨same, enrolled.forest, enrolled.records⟩
  | called watcher _ reaction =>
    cases hw₁.symm.trans watcher
    rw [reaction] at target
    cases target
  | filled watcher changed htarget fill =>
    cases hw₁.symm.trans watcher
    cases target.symm.trans htarget
    rw [current] at changed fill ⊢
    obtain ⟨f, hf, shows, -⟩ := Forest.fill_of_takes takes (e.graph.current w).text
    cases hf.symm.trans fill
    refine .inr ⟨changed, shows, ?_⟩
    have renewed : ((e.graph.retain s).renew s w).records = e.graph.records := enrolled.records
    cases w.reaction with
    | showValue n r =>
      simp only [Graph.noted, Graph.setRecord, renewed]
    | _ => exact renewed
  | failed watcher _ htarget fill =>
    cases hw₁.symm.trans watcher
    cases target.symm.trans htarget
    rw [current] at fill
    obtain ⟨f, hf, -⟩ := Forest.fill_of_takes takes (e.graph.current w).text
    cases hf.symm.trans fill

theorem filled?_of_alone (allowed : e.Allows m) (alone : ∀ t ∈ e.graph.fillers slot, t = s)
    (edited : m.edited? ≠ some slot) (others : e.updated? m ≠ some s) : e.filled? m ≠ some slot := by
  intro filled
  rcases Option.or_eq_some_iff.1 filled with filled | ⟨-, filled⟩
  · exact edited filled
  · obtain ⟨w, hw, target⟩ := Option.bind_eq_some_iff.1 filled
    obtain ⟨t, updated, hw⟩ := Option.bind_eq_some_iff.1 hw
    have alive := (perform_of_updated allowed updated).1
    rw [alone t (Graph.mem_fillers alive hw target)] at updated
    exact others updated

theorem shows_init {c : CompilerId} (wf : e.WellFormed) (allowed : e.Allows (.init c))
    (hs : s.index < e.graph.subscribers.size) (alone : ∀ t ∈ (e.perform (.init c)).graph.fillers slot, t = s)
    (there : (∃ n, slot = .value n) ∨ (e.perform (.init c)).graph.forest.shows slot ≠ none) :
    (e.perform (.init c)).graph.forest.shows slot = e.graph.forest.shows slot := by
  have extended := (Graph.initializes_init (wf.compilers allowed.2.1)).extended
  rcases extended.renders slot with ⟨absent, other⟩ | ⟨same, -⟩ | ⟨t, w', ht, hw', htarget, -⟩
  · rcases there with ⟨n, same⟩ | there
    · exact absurd same (other n)
    · exact absurd absent there
  · exact same
  · obtain ⟨w'', fresh⟩ := extended.grows.fresh ht (Graph.exists_of_watcher? hw')
    have alive : (e.perform (.init c)).graph.alive t := by
      rw [Graph.alive, perform, fresh.made]
      rfl
    rw [alone t (Graph.mem_fillers alive hw' htarget)] at ht
    exact absurd hs (Nat.not_lt_of_le ht)

theorem shown_perform (wf : e.WellFormed) (allowed : e.Allows m) (hw : e.graph.watcher? s = some w)
    (hw' : (e.perform m).graph.watcher? s = some w') (target : w.reaction.slot? = some slot)
    (edited : m.edited? ≠ some slot) (alone : ∀ t ∈ e.graph.fillers slot, t = s)
    (alone' : ∀ t ∈ (e.perform m).graph.fillers slot, t = s)
    (there : (e.perform m).graph.forest.shows slot ≠ none)
    (shown : e.graph.forest.shows slot = some w.value.text) :
    (e.perform m).graph.forest.shows slot = some w'.value.text := by
  have takes := Forest.takes_of_shows shown
  have hs := Graph.exists_of_watcher? hw
  by_cases updated : e.updated? m = some s
  · rcases watcher?_of_updated allowed updated hw with ⟨same, hu⟩ | ⟨changed, hu⟩
    · cases hw'.symm.trans hu
      rcases filled_of_updated allowed updated hw target takes with ⟨-, forest, -⟩ | ⟨changed, -⟩
      · rw [forest]
        exact shown
      · rw [same] at changed
        cases changed
    · cases hw'.symm.trans hu
      rcases filled_of_updated allowed updated hw target takes with ⟨same, -⟩ | ⟨-, shows, -⟩
      · rw [same] at changed
        cases changed
      · exact shows
  · obtain rfl := watcher_eq_of_not_updated wf allowed hw hw' updated
    rw [← shown]
    by_cases started : ∃ c, m = .init c
    · obtain ⟨c, rfl⟩ := started
      exact shows_init wf allowed hs alone' (.inr there)
    · have leaves := leaves_perform allowed fun c hc => started ⟨c, hc⟩
      exact leaves.shows (filled?_of_alone allowed alone edited updated) (Forest.exists_of_takes takes)

end Engine

namespace Run

variable {h₁ h₀ : History} {e₀ e : Engine} {m₀ : Move} {c : CompilerId} {s : SubscriberId} {w : Watcher}
  {slot : Slot}

theorem exists_of_made (run : Run (h₁ ++ (e₀, m₀) :: h₀) e) (made : e₀.makes m₀ s) :
    s.index < e.graph.subscribers.size := by
  obtain ⟨-, -, run₁⟩ := run.of_move
  apply run₁.onward run (Engine.makes_iff.1 made).2
  intro h e m earlier allowed exist
  exact Nat.lt_of_lt_of_le exist (Engine.changes_perform earlier.wellFormed allowed).subscribers

theorem mem_graphs (run : Run (h₁ ++ (e₀, m₀) :: h₀) e) : (e₀.perform m₀).graph ∈ h₁.graphs e := by
  obtain ⟨-, -, run₁⟩ := run.of_move
  refine run₁.along (P := fun h e => (e₀.perform m₀).graph ∈ h.graphs e) run List.mem_cons_self ?_
  exact fun _ _ _ _ _ _ => List.mem_cons_of_mem _

theorem lastSeen?_of_made (made : e₀.makes m₀ s) {g : Graph}
    (seen : History.lastSeen? (h₁ ++ (e₀, m₀) :: h₀) s = some g) :
    g = e₀.graph ∨ g ∈ h₁.map fun x => x.1.graph := by
  induction h₁ with
  | nil =>
    rw [List.nil_append, History.lastSeen?_cons, Engine.evaluates, made, Bool.or_true, if_pos rfl] at seen
    exact .inl (Option.some.inj seen).symm
  | cons x h₁ ih =>
    rw [List.cons_append, History.lastSeen?_cons] at seen
    split at seen
    · cases seen
      exact .inr List.mem_cons_self
    · rcases ih seen with same | later
      · exact .inl same
      · exact .inr (List.mem_cons_of_mem _ later)

theorem shown (run : Run (h₁ ++ (e₀, .init c) :: h₀) e) (made : e₀.makes (.init c) s)
    (hw : e.graph.watcher? s = some w) (target : w.reaction.slot? = some slot)
    (edited : ∀ x ∈ h₁, x.2.edited? ≠ some slot)
    (served : ∀ g ∈ h₁.graphs e, (∀ t ∈ g.fillers slot, t = s) ∧ g.forest.shows slot ≠ none) :
    e.graph.forest.shows slot = some w.value.text := by
  induction h₁ generalizing e w with
  | nil =>
    cases run with
    | move run allowed =>
      obtain ⟨alone, there⟩ := served _ List.mem_cons_self
      exact Engine.shown_init run.wellFormed allowed (Engine.makes_iff.1 made).1 hw target alone (.inr there)
  | cons x h₁ ih =>
    cases run with
    | @move _ e m run allowed =>
      have hs := exists_of_made run made
      have later : ∀ g ∈ History.graphs h₁ e, (∀ t ∈ g.fillers slot, t = s) ∧ g.forest.shows slot ≠ none :=
        fun g hg => served g (List.mem_cons_of_mem _ hg)
      obtain ⟨alone, -⟩ := later _ List.mem_cons_self
      obtain ⟨alone', there⟩ := served _ List.mem_cons_self
      obtain ⟨w₀, hw₀, same⟩ := (Engine.changes_perform run.wellFormed allowed).watched_of_lt hs hw
      rw [same] at target
      have shown := ih run hw₀ target (fun y hy => edited y (List.mem_cons_of_mem _ hy)) later
      exact Engine.shown_perform run.wellFormed allowed hw₀ hw target
        (edited _ List.mem_cons_self) alone alone'
        there shown

theorem held_of_settled (run : Run (h₁ ++ (e₀, .init c) :: h₀) e) (unique : e.UniqueIdentities)
    (made : e₀.makes (.init c) s) (alive : e.graph.alive s) (hw : e.graph.watcher? s = some w)
    (whole : ∀ g ∈ h₁.graphs e, g.missing? (g.origin w) w.path = none) (settled : e.Settled) :
    e.graph.Holds w := by
  obtain ⟨g, seen, current⟩ := run.current unique alive hw
  apply current.of_settled settled
  have whole : g.missing? (g.origin w) w.path = none := by
    rcases lastSeen?_of_made made seen with rfl | later
    · -- compilation reads the properties that were there before it
      obtain ⟨run₀, allowed, -⟩ := run.of_move
      have grows := (Graph.initializes_init (run₀.wellFormed.compilers allowed.2.1)).extended.grows
      have after := whole _ run.mem_graphs
      rw [Engine.perform, Graph.origin_congr grows.models, Graph.missing?_congr grows.property] at after
      exact after
    · exact whole g (List.mem_cons_of_mem _ later)
  intro p hp
  rw [whole] at hp
  cases hp

/-- Where a binding is alive, alone fills its slot, and has a path that never misses a key, the slot shows the
text of what the path leads to while no notification is under way. -/
theorem slot_shows_current (run : Run (h₁ ++ (e₀, .init c) :: h₀) e) (unique : e.UniqueIdentities)
    (made : e₀.makes (.init c) s) (mem : s ∈ (e.graph.compiler c).watchers)
    (kept : (e.graph.compiler c).dropped = false) (hw : e.graph.watcher? s = some w)
    (strict : (e.graph.model w.model).options.changeDetection = .strict)
    (target : w.reaction.slot? = some slot) (edited : ∀ x ∈ h₁, x.2.edited? ≠ some slot)
    (served : ∀ g ∈ h₁.graphs e, g.Serves s w slot) (settled : e.Settled) :
    e.graph.forest.shows slot = some (e.graph.current w).text := by
  have alive := run.alive_of_compiler kept mem
  have shown := run.shown made hw target edited fun g hg => ⟨(served g hg).alone, (served g hg).there⟩
  have held := run.held_of_settled unique made alive hw (fun g hg => (served g hg).whole) settled
  rw [shown]
  rcases held with same | same
  · rw [same]
  · rw [(run.wellFormed.watchers hw).policy, strict] at same
    rw [Value.text_of_strictEq same]

def drawing : List Move :=
  [.createStore [("name", .null)], .createStore [("o", .object ⟨0⟩)],
    .createModel { data := ⟨1⟩, methods := [], options := {} }, .createWatcher ⟨0⟩ ⟨["o"], "name"⟩ ⟨0⟩,
    .edit (.createDocument
        [.element "div" [] [.element "p" [(":title", "o.name")] [.text "\x7b\x7b o.name \x7d\x7d"]]]),
    .createCompiler ⟨0⟩ "div" ⟨0⟩]

/-- The callback of the watcher names the new object again, and fails. -/
def redrawing : List Move :=
  [.createStore [("name", .bool false)], .write ⟨1⟩ "o" (.object ⟨2⟩), .step,
    .writePath ⟨1⟩ ⟨["o"], "name"⟩ (.string "x"), .step, .resume (.ok ()), .step, .step,
    .resume (.error .configuration), .step, .step, .step, .step, .step, .step]

def drawn : Engine := Engine.after {} drawing

def redrawn : Engine := (drawn.perform (.init ⟨0⟩)).after redrawing

theorem redrawn_slot_shows_current :
    ∃ w, redrawn.graph.watcher? ⟨2⟩ = some w ∧ w.path = ⟨["o"], "name"⟩ ∧ redrawn.Settled ∧
      redrawn.graph.forest.shows (.text ⟨3⟩) = some (redrawn.graph.current w).text := by
  have run : Run (Engine.trace {} drawing) drawn := Run.of_admits (by decide +kernel)
  have run := run.move (m := .init ⟨0⟩) (by decide +kernel)
  have run : Run _ redrawn := run.after redrawing (by decide +kernel)
  have found : (redrawn.graph.watcher? ⟨2⟩).isSome = true := by decide +kernel
  obtain ⟨w, hw⟩ := Option.isSome_iff_exists.1 found
  have facts : ∀ w ∈ redrawn.graph.watcher? ⟨2⟩, w.path = ⟨["o"], "name"⟩ ∧
      (redrawn.graph.model w.model).options.changeDetection = .strict ∧ w.reaction.slot? = some (.text ⟨3⟩) ∧
      ∀ g ∈ History.graphs ((drawn.perform (.init ⟨0⟩)).trace redrawing) redrawn,
        g.Serves ⟨2⟩ w (.text ⟨3⟩) := by
    decide +kernel
  obtain ⟨path, strict, target, served⟩ := facts w hw
  have made : drawn.makes (.init ⟨0⟩) ⟨2⟩ = true := by decide +kernel
  have mem : (⟨2⟩ : SubscriberId) ∈ (redrawn.graph.compiler ⟨0⟩).watchers := by decide +kernel
  have kept : (redrawn.graph.compiler ⟨0⟩).dropped = false := by decide +kernel
  have edited : ∀ x ∈ (drawn.perform (.init ⟨0⟩)).trace redrawing, x.2.edited? ≠ some (.text ⟨3⟩) := by
    decide +kernel
  have settled : redrawn.Settled := by decide +kernel
  exact ⟨w, hw, path, settled,
    run.slot_shows_current (by decide +kernel) made mem kept hw strict target edited served settled⟩

end Run

end DataBinding
