import DataBinding.Proofs.CompilationPieces
import DataBinding.Proofs.KeptSubscribers

namespace DataBinding

def Graph.fills? (g : Graph) (s : SubscriberId) : Option Slot := (g.watcher? s).bind fun w => w.reaction.slot?

/-- The work that has to wait for something else: all of it in the turn of the environment. -/
def Engine.waiting (e : Engine) : List Frame :=
  match e.turn with
  | .environment _ => e.frames
  | _ => e.frames.tail

/-- Watchers of compilers fill slots and belong to one compiler each. Whoever fills a slot is updated at once, so no
work that waits keeps it. -/
structure Engine.Owned (e : Engine) : Prop where
  filling : ∀ {c s}, s ∈ (e.graph.compiler c).watchers → (e.graph.fills? s).isSome
  apart : ∀ {c c' s}, s ∈ (e.graph.compiler c).watchers → s ∈ (e.graph.compiler c').watchers → c = c'
  idle : ∀ {s}, (e.graph.fills? s).isSome → ∀ f ∈ e.waiting, f.holds s = 0

/-- A compiler is dropped, and nobody holds one of its watchers but work under way and other compilers. -/
def Engine.LetGo (e : Engine) (c : CompilerId) : Prop :=
  (e.graph.compiler c).dropped = true ∧
    ∀ s ∈ (e.graph.compiler c).watchers, (e.graph.subscriber s).holders ≤ e.bound s

instance (e : Engine) (c : CompilerId) : Decidable (e.LetGo c) := inferInstanceAs (Decidable (_ ∧ _))

variable {e e' : Engine} {m : Move} {s : SubscriberId} {c : CompilerId} {g g' : Graph} {model : ModelId}
  {names : NodeId → String → Prop} {h : History}

namespace Graph

theorem exists_of_fills? (fills : (g.fills? s).isSome) : s.index < g.subscribers.size := by
  obtain ⟨slot, hslot⟩ := Option.isSome_iff_exists.1 fills
  obtain ⟨w, hw, -⟩ := Option.bind_eq_some_iff.1 hslot
  exact exists_of_watcher? hw

theorem exists_of_mem_watchers (mem : s ∈ (g.compiler c).watchers) : c.index < g.compilers.size := by
  apply Nat.lt_of_not_le
  intro hc
  have absent : g.compiler c = default := Table.get_of_size_le _ hc
  rw [absent] at mem
  cases mem

theorem fills?_congr (same : g'.subscribers = g.subscribers) (s : SubscriberId) : g'.fills? s = g.fills? s := by
  rw [fills?, watcher?_congr same, fills?]

end Graph

theorem Piece.filling (h : Piece model names g g')
    (new : g.subscribers.size ≤ s.index) (exist : s.index < g'.subscribers.size) : (g'.fills? s).isSome := by
  cases h with
  | @watch path reaction slot target takes named =>
    have gains := Graph.gains_createWatcher g model path reaction
    have same := gains.eq_of_new new exist
    subst same
    rw [Graph.fills?, gains.watcher?_new, Option.bind_some]
    exact Option.isSome_iff_exists.2 ⟨slot, target⟩
  | _ => exact absurd exist (Nat.not_lt_of_le new)

theorem Piece.fills? (h : Piece model names g g') (exist : s.index < g.subscribers.size) :
    g'.fills? s = g.fills? s := by
  cases h with
  | watch path target takes named =>
    have gains := Graph.gains_createWatcher g model path
    rw [Graph.fills?, Graph.watcher?, (gains _).others s ((gains _).ne_of_lt exist), Graph.fills?, Graph.watcher?]
  | _ => exact Graph.fills?_congr rfl s

theorem Pieces.filling (h : Pieces model names g g')
    (new : g.subscribers.size ≤ s.index) (exist : s.index < g'.subscribers.size) : (g'.fills? s).isSome := by
  induction h with
  | nil => exact absurd exist (Nat.not_lt_of_le new)
  | @snoc g₁ g₂ pieces piece ih =>
    by_cases old : s.index < g₁.subscribers.size
    · rw [piece.fills? old]
      exact ih old
    · exact piece.filling (Nat.le_of_not_lt old) exist

theorem Graph.filling_init (g : Graph) (c : CompilerId) (new : g.subscribers.size ≤ s.index)
    (exist : s.index < (g.init c).2.subscribers.size) : ((g.init c).2.fills? s).isSome := by
  rcases g.init_cases Compilation.closed_trivial c with ⟨d, same⟩ | ⟨root, g', f, d, pieces, -, same⟩
  · rw [same] at exist
    cases Nat.not_lt_of_le new exist
  · rw [same] at exist ⊢
    exact (pieces fun _ _ _ => trivial).filling new exist

namespace Engine

theorem fills?_perform (wf : e.WellFormed) (allowed : e.Allows m) (exist : s.index < e.graph.subscribers.size) :
    (e.perform m).graph.fills? s = e.graph.fills? s := by
  rw [Graph.fills?, Graph.fills?]
  cases hw : e.graph.watcher? s with
  | none =>
    cases hw' : (e.perform m).graph.watcher? s with
    | none => rfl
    | some w =>
      obtain ⟨w₀, hw₀, -⟩ := (changes_perform wf allowed).watched_of_lt exist hw'
      rw [hw] at hw₀
      cases hw₀
  | some w =>
    by_cases updated : e.updated? m = some s
    · rcases watcher?_of_updated allowed updated hw with ⟨-, hw'⟩ | ⟨-, hw'⟩
      · rw [hw']
      · rw [hw']
        rfl
    · rw [watcher?_of_not_updated wf allowed exist updated, hw]

theorem owner_perform (wf : e.WellFormed) (allowed : e.Allows m)
    (mem : s ∈ ((e.perform m).graph.compiler c).watchers) :
    s ∈ (e.graph.compiler c).watchers ∨
      (m = .init c ∧ e.graph.subscribers.size ≤ s.index ∧ s.index < (e.perform m).graph.subscribers.size) := by
  have has := allowed.2
  rcases compilers_perform allowed with same | ⟨document, selector, model, rfl⟩ | ⟨c', rfl | rfl⟩
  · rw [Graph.compiler, same] at mem
    exact .inl mem
  · simp only [perform, Graph.compiler_createCompiler] at mem
    split at mem
    · cases mem
    · exact .inl mem
  · obtain ⟨d, hd, -, -, watchers⟩ := (Graph.initializes_init (wf.compilers has.1)).compilers
    simp only [perform, Graph.compiler_of_modify hd] at mem
    split at mem
    · next here =>
      obtain ⟨rfl, -⟩ := here
      rcases watchers with ⟨old, -⟩ | new
      · exact .inl (old ▸ mem)
      · right
        rw [new, List.mem_map] at mem
        obtain ⟨i, hi, rfl⟩ := mem
        have range := List.mem_range'_1.1 hi
        have grown := (changes_perform wf allowed).subscribers
        simp only [perform] at grown ⊢
        exact ⟨trivial, range.1, by omega⟩
    · exact .inl mem
  · left
    simp only [perform, compiler_dropCompiler] at mem
    split at mem
    · next here =>
      rw [here.1]
      exact mem
    · exact mem

theorem mem_of_waiting {f : Frame} (mem : f ∈ e.waiting) : f ∈ e.frames := by
  unfold waiting at mem
  split at mem
  · exact mem
  · exact List.mem_of_mem_tail mem

def Spares (g : Graph) (f : Frame) : Prop := ∀ s, (g.fills? s).isSome → f.holds s = 0

theorem waiting_update {f : Frame} {frames : List Frame} (top : e.frames = f :: frames)
    (kept : ∀ t, t ≠ s → f.holds t = 0) (rest : ∀ f ∈ frames, Spares e.graph f) :
    ∀ f ∈ (e.update s).waiting, Spares e.graph f := by
  have own (other : e.graph.fills? s = none) : Spares e.graph f := by
    intro t fills
    apply kept
    rintro rfl
    rw [other] at fills
    cases fills
  have updates := updates_update e s
  generalize e.update s = e' at updates
  -- whoever waits for a callback fills no slot
  cases updates with
  | notified role =>
    rw [waiting, top]
    apply List.forall_mem_cons.2 ⟨own _, rest⟩
    rw [Graph.fills?, Graph.watcher?, role]
    rfl
  | called watcher _ reaction =>
    rw [waiting, top]
    apply List.forall_mem_cons.2 ⟨own _, rest⟩
    rw [Graph.fills?, watcher, Option.bind_some, reaction]
    rfl
  | same _ _ =>
    rw [waiting, top]
    exact rest
  | filled _ _ _ _ =>
    rw [waiting, top]
    exact rest
  | failed _ _ _ _ =>
    rw [waiting, top]
    exact rest

theorem spares_retain {f : Frame} : Spares (g.retain s) f ↔ Spares g f := by
  simp [Spares, Graph.fills?]

theorem waiting_updated {f : Frame} {frames : List Frame} {turn : Turn} (kept : ∀ t, t ≠ s → f.holds t = 0)
    (rest : ∀ f ∈ frames, Spares g f) :
    ∀ f' ∈ (update ⟨g.retain s, f :: frames, turn⟩ s).waiting, Spares g f' := by
  have rest : ∀ f ∈ frames, Spares (g.retain s) f := fun f hf => spares_retain.2 (rest f hf)
  have updated := waiting_update (e := ⟨g.retain s, f :: frames, turn⟩) rfl kept rest
  exact fun f' hf => spares_retain.1 (updated f' hf)

theorem waiting_hear (g : Graph) {f : Frame} {frames : List Frame} (event : Event) (listener : Listener)
    (quiet : ∀ t, f.holds t = 0) (rest : ∀ f ∈ frames, Spares g f) :
    ∀ f' ∈ (hear ⟨g, f :: frames, .next⟩ event listener).waiting, Spares g f' := by
  have all : ∀ f' ∈ f :: frames, Spares g f' := List.forall_mem_cons.2 ⟨fun t _ => quiet t, rest⟩
  rcases hear_cases ⟨g, f :: frames, .next⟩ event listener with ⟨⟨turn, heard⟩, -⟩
    | ⟨m, path, r, text, -, -, -, ⟨-, -, heard⟩ | ⟨t, -, -, heard⟩⟩
  · rw [heard]
    exact fun f' hf => all f' (mem_of_waiting hf)
  · rw [heard]
    exact fun f' hf => all f' (mem_of_waiting hf)
  · rw [heard]
    exact all

theorem waiting_steps (h : Steps e e') (spared : ∀ f ∈ e.waiting, Spares e.graph f) :
    ∀ f ∈ e'.waiting, Spares e.graph f := by
  cases h with
  | update alive =>
    apply waiting_updated _ spared
    exact fun t other => if_neg (Ne.symm other)
  | hear => exact waiting_hear _ _ _ (fun _ => rfl) spared
  | @pass _ purpose =>
    cases purpose with
    | input key => exact fun f hf => spared f (List.mem_of_mem_tail hf)
    | _ => exact spared
  | rest => exact spared
  | accept => exact spared
  | _ => exact spared

theorem waiting_perform (allowed : e.Allows m) (spared : ∀ f ∈ e.waiting, Spares e.graph f) :
    ∀ f ∈ (e.perform m).waiting, Spares e.graph f := by
  by_cases own : m = .step
  · subst own
    exact waiting_steps (steps_of_allows allowed) spared
  · obtain ⟨g, frames, turn⟩ := e
    have idle : ¬ (step? ⟨g, frames, turn⟩).isSome := fun steps => own (allowed.1.2 steps)
    cases turn with
    | next => exact absurd rfl idle
    | result r => exact absurd rfl idle
    | environment reply =>
      change ∀ f ∈ frames, Spares g f at spared
      cases m with
      | step => exact absurd rfl own
      | resume r => exact fun f hf => spared f (List.mem_of_mem_tail hf)
      | writePath s path v =>
        simp only [perform, writePath]
        cases g.walk? s path.parents <;> exact spared
      | run s =>
        apply waiting_updated _ spared
        exact fun t other => if_neg (Ne.symm other)
      | call m name event =>
        simp only [perform, call]
        cases (g.model m).methods.get? name with
        | none => exact spared
        | some callback => exact List.forall_mem_cons.2 ⟨fun _ _ => rfl, spared⟩
      | input n text =>
        simp only [perform, input]
        cases g.forest.setValue n text <;> exact spared
      | _ => exact spared

theorem holds_of_total {f : Frame} {frames : List Frame} (none : Table.total (Frame.holds s) frames = 0)
    (mem : f ∈ frames) : f.holds s = 0 := by
  induction frames with
  | nil => cases mem
  | cons f' frames ih =>
    rw [Table.total_cons] at none
    rcases List.mem_cons.1 mem with rfl | mem
    · omega
    · exact ih (by omega) mem

theorem holds_of_new (wf : e.WellFormed) (accounted : e.Accounted) (allowed : e.Allows m)
    (new : e.graph.subscribers.size ≤ s.index) : ∀ f ∈ (e.perform m).frames, f.holds s = 0 := by
  have unknown {e : Engine} (accounted : e.Accounted) (new : e.graph.subscribers.size ≤ s.index) :
      ∀ f ∈ e.frames, f.holds s = 0 := by
    have absent : e.graph.subscriber s = default := Table.get_of_size_le _ new
    have counted := accounted s
    rw [absent, bound] at counted
    exact fun f hf => holds_of_total (Nat.le_zero.1 (Nat.le_trans (Nat.le_add_right _ _) counted)) hf
  rcases size_perform allowed with size | ⟨identity, callback, rfl⟩ | ⟨model, path, callback, rfl⟩ | ⟨c, rfl⟩
  · exact unknown (accounted_perform wf accounted allowed) (by rwa [size])
  · exact unknown (e := e) accounted new
  · exact unknown (e := e) accounted new
  · exact unknown (e := e) accounted new

theorem owned_perform (wf : e.WellFormed) (accounted : e.Accounted) (owned : e.Owned) (allowed : e.Allows m) :
    (e.perform m).Owned where
  filling {c s} mem := by
    rcases owner_perform wf allowed mem with mem | ⟨rfl, new, exist⟩
    · have fills := owned.filling mem
      rwa [fills?_perform wf allowed (Graph.exists_of_fills? fills)]
    · exact Graph.filling_init e.graph c new exist
  apart {c c' s} mem mem' := by
    rcases owner_perform wf allowed mem with old | ⟨rfl, new, -⟩
    · rcases owner_perform wf allowed mem' with old' | ⟨-, new, -⟩
      · exact owned.apart old old'
      · exact absurd (Graph.exists_of_fills? (owned.filling old)) (Nat.not_lt_of_le new)
    · rcases owner_perform wf allowed mem' with old | ⟨same, -⟩
      · exact absurd (Graph.exists_of_fills? (owned.filling old)) (Nat.not_lt_of_le new)
      · cases same
        rfl
  idle {s} fills f hf := by
    by_cases old : s.index < e.graph.subscribers.size
    · rw [fills?_perform wf allowed old] at fills
      exact waiting_perform allowed (fun f hf s fills => owned.idle fills f hf) f hf s fills
    · exact holds_of_new wf accounted allowed (Nat.le_of_not_lt old) f (mem_of_waiting hf)

theorem owned_start : Owned {} where
  filling mem := absurd (Graph.exists_of_mem_watchers mem) (Nat.not_lt_zero _)
  apart mem _ := absurd (Graph.exists_of_mem_watchers mem) (Nat.not_lt_zero _)
  idle _ _ hf := absurd hf List.not_mem_nil

end Engine

theorem Run.owned (run : Run h e) : e.Owned := by
  induction run with
  | start => exact Engine.owned_start
  | move run allowed ih => exact Engine.owned_perform run.wellFormed run.accounted ih allowed

theorem Table.total_eq_zero {α : Type} {f : α → Nat} {as : List α} (none : ∀ a ∈ as, f a = 0) :
    Table.total f as = 0 := by
  induction as with
  | nil => rfl
  | cons a as ih =>
    rw [Table.total_cons, none a List.mem_cons_self, ih fun b hb => none b (List.mem_cons_of_mem _ hb)]

namespace Engine

theorem keeps_of_dropped (owned : e.Owned) (dropped : (e.graph.compiler c).dropped = true)
    (mem : s ∈ (e.graph.compiler c).watchers) : e.graph.keeps s = 0 := by
  apply Table.total_eq_zero
  intro d hd
  obtain ⟨i, hi, rfl⟩ := List.mem_iff_getElem.1 hd
  have entry : e.graph.compiler ⟨i⟩ = e.graph.compilers.entries.toList[i] := by
    rw [Array.length_toList] at hi
    simp [Graph.compiler, Table.get, Array.getD_eq_getD_getElem?, hi]
  rw [← entry, Compiler.holds]
  split
  · rfl
  · next kept =>
    apply List.count_eq_zero.2
    intro mem'
    rw [owned.apart mem' mem, dropped] at kept
    exact kept rfl

theorem compiler_of_dropped (wf : e.WellFormed) (allowed : e.Allows m)
    (dropped : (e.graph.compiler c).dropped = true) : (e.perform m).graph.compiler c = e.graph.compiler c := by
  have has := allowed.2
  have exist : c.index < e.graph.compilers.size := by
    apply Nat.lt_of_not_le
    intro hc
    have absent : e.graph.compiler c = default := Table.get_of_size_le _ hc
    rw [absent] at dropped
    cases dropped
  have other {c' : CompilerId} (kept : (e.graph.compiler c').dropped = false) : c ≠ c' := by
    rintro rfl
    rw [dropped] at kept
    cases kept
  rcases compilers_perform allowed with same | ⟨document, selector, model, rfl⟩ | ⟨c', rfl | rfl⟩
  · rw [Graph.compiler, same, Graph.compiler]
  · simp only [perform, Graph.compiler_createCompiler]
    exact if_neg (Nat.ne_of_lt exist)
  · obtain ⟨d, hd, -⟩ := (Graph.initializes_init (wf.compilers has.1)).compilers
    simp [perform, Graph.compiler_of_modify hd, other has.2]
  · simp [perform, other has.2]

end Engine

theorem Run.gone_of_letGo (run : Run h e) (resting : e.step? = none) (left : e.LetGo c)
    (mem : s ∈ (e.graph.compiler c).watchers) : e.graph.alive s = false := by
  have owned := run.owned
  have keeps := Engine.keeps_of_dropped owned left.1 mem
  have waiting : e.waiting = e.frames := by
    rw [Engine.waiting]
    cases turn : e.turn with
    | environment reply => rfl
    | _ =>
      rw [Engine.step?, turn] at resting
      cases resting
  have frames : Table.total (Frame.holds s) e.frames = 0 := by
    apply Table.total_eq_zero
    rw [← waiting]
    exact owned.idle (owned.filling mem)
  have held := left.2 s mem
  rw [Engine.bound, keeps, frames] at held
  rw [Graph.alive, decide_eq_false_iff_not]
  omega

end DataBinding
