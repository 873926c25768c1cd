import DataBinding.Proofs.MoveEffects

namespace DataBinding

open DataBinding.Graph (Changes)

namespace Graph

variable {g g' : Graph} {s t : SubscriberId}

@[simp] theorem compilers_release (g : Graph) (s : SubscriberId) : (g.release s).compilers = g.compilers := by
  unfold release
  dsimp only
  split
  · split <;> rfl
  · rfl

@[simp] theorem compilers_releases (ss : List SubscriberId) (g : Graph) :
    (ss.foldl Graph.release g).compilers = g.compilers := by
  induction ss generalizing g with
  | nil => rfl
  | cons s ss ih => exact (ih _).trans (compilers_release g s)

@[simp] theorem compilers_releaseAny (g : Graph) (s : Option SubscriberId) :
    (g.releaseAny s).compilers = g.compilers := by
  cases s with
  | none => rfl
  | some s => exact compilers_release g s

theorem holders_retain (g : Graph) (s t : SubscriberId) (h : s.index < g.subscribers.size) :
    ((g.retain s).subscriber t).holders = (g.subscriber t).holders + if s = t then 1 else 0 := by
  rw [retain, subscriber_modifySubscriber]
  by_cases ht : t = s
  · subst ht
    simp [h]
  · simp [ht, Ne.symm ht]

@[simp] theorem holders_release (g : Graph) (s t : SubscriberId) :
    ((g.release s).subscriber t).holders = (g.subscriber t).holders - if s = t then 1 else 0 := by
  have released : ((g.modifySubscriber s fun d => { d with holders := d.holders - 1 }).subscriber t).holders =
      (g.subscriber t).holders - if s = t then 1 else 0 := by
    rw [subscriber_modifySubscriber]
    by_cases ht : t = s
    · subst ht
      by_cases h : t.index < g.subscribers.size
      · simp [h]
      · have absent : g.subscriber t = default := Table.get_of_size_le _ (Nat.le_of_not_lt h)
        simp [h, absent, default]
    · simp [ht, Ne.symm ht]
  unfold release
  dsimp only
  split
  · split <;> exact released
  · exact released

@[simp] theorem holders_releases (ss : List SubscriberId) (g : Graph) (t : SubscriberId) :
    ((ss.foldl Graph.release g).subscriber t).holders = (g.subscriber t).holders - ss.count t := by
  induction ss generalizing g with
  | nil => simp
  | cons s ss ih =>
    rw [List.foldl_cons, ih, holders_release, List.count_cons]
    by_cases h : s = t
    · simp only [h, if_true, beq_self_eq_true]
      omega
    · simp only [h, if_false, beq_iff_eq]
      omega

end Graph

namespace Engine

variable {e e' : Engine} {m : Move} {s : SubscriberId}

theorem compilers_steps (h : Steps e e') : e'.graph.compilers = e.graph.compilers := by
  cases h with
  | update _ => exact (steady_update _ _).compilers
  | hear => exact (steady_hear _ _ _).compilers
  | run => exact Graph.compilers_release _ _
  | acceptPass => exact Graph.compilers_releaseAny _ _
  | acceptRun => exact Graph.compilers_release _ _
  | _ => rfl

theorem compilers_perform (allowed : e.Allows m) :
    (e.perform m).graph.compilers = e.graph.compilers ∨
      (∃ document selector model, m = .createCompiler document selector model) ∨
        ∃ c, m = .init c ∨ m = .dropCompiler c := by
  cases m with
  | step => exact .inl (compilers_steps (steps_of_allows allowed))
  | write s key v => exact .inl rfl
  | writePath s path v =>
    left
    simp only [perform, writePath]
    cases e.graph.walk? s path.parents <;> rfl
  | notify r => exact .inl (by cases r <;> rfl)
  | run s =>
    exact .inl (steady_update ⟨e.graph.retain s, .run s :: e.frames, e.turn⟩ s).compilers
  | call m name event =>
    left
    simp only [perform, call]
    cases (e.graph.model m).methods.get? name <;> rfl
  | input n text =>
    left
    simp only [perform, input]
    cases e.graph.forest.setValue n text <;> rfl
  | readPath reader s path => exact .inl (Graph.enrolled_readPath _ _ _ _).compilers
  | register r s => exact .inl (Graph.enrolled_register _ _ _).compilers
  | createWatcher m path callback =>
    exact .inl (Graph.gains_createWatcher e.graph m path (.call callback)).compilers
  | release s => exact .inl (Graph.compilers_release _ _)
  | createCompiler document selector model => exact .inr (.inl ⟨document, selector, model, rfl⟩)
  | init c => exact .inr (.inr ⟨c, .inl rfl⟩)
  | dropCompiler c => exact .inr (.inr ⟨c, .inr rfl⟩)
  | _ => exact .inl rfl

@[simp] theorem compilers_dropCompiler (g : Graph) (c : CompilerId) :
    (g.dropCompiler c).compilers =
      g.compilers.modify c.index fun _ => { g.compiler c with dropped := true } := by
  simp only [Graph.dropCompiler]
  rw [Graph.compilers_releases]
  rfl

@[simp] theorem compiler_dropCompiler (g : Graph) (c c' : CompilerId) :
    (g.dropCompiler c).compiler c' =
      if c' = c ∧ c.index < g.compilers.size then { g.compiler c with dropped := true } else g.compiler c' :=
  Graph.compiler_of_modify (compilers_dropCompiler g c) c'

theorem wellFormed_perform (wf : e.WellFormed) (allowed : e.Allows m) : (e.perform m).WellFormed where
  readers h := by
    have changes := changes_perform wf allowed
    rcases changes.known h with h | h
    · exact Nat.lt_of_lt_of_le (wf.readers h) changes.subscribers
    · exact h
  watchers {s w} h := by
    have changes := changes_perform wf allowed
    rcases changes.watched h with ⟨w₀, h₀, hw⟩ | ⟨-, fits⟩
    · have fits := (wf.watchers h₀).mono changes.models changes.model
      rw [hw]
      exact ⟨fits.model, fits.policy⟩
    · exact fits
  compilers {c} h := by
    have models := (changes_perform wf allowed).models
    have has := allowed.2
    rcases compilers_perform allowed with same | ⟨document, selector, m, rfl⟩ | ⟨c', rfl | rfl⟩
    · rw [Graph.compiler, same]
      rw [same] at h
      exact Nat.lt_of_lt_of_le (wf.compilers h) models
    · simp only [perform, Graph.size_createCompiler, Graph.compiler_createCompiler] at h ⊢
      split
      · exact has
      · next hc => exact wf.compilers (Nat.lt_of_le_of_ne (Nat.le_of_lt_succ h) hc)
    · have initialized := Graph.initializes_init (wf.compilers has.1)
      obtain ⟨d, hd, hmodel, -⟩ := initialized.compilers
      simp only [perform] at h models ⊢
      rw [hd, Table.size_modify] at h
      rw [Graph.compiler_of_modify hd]
      split
      · rw [hmodel]
        exact Nat.lt_of_lt_of_le (wf.compilers has.1) models
      · exact Nat.lt_of_lt_of_le (wf.compilers h) models
    · simp only [perform] at h models ⊢
      rw [compilers_dropCompiler, Table.size_modify] at h
      rw [compiler_dropCompiler]
      split
      · exact Nat.lt_of_lt_of_le (wf.compilers has.1) models
      · exact Nat.lt_of_lt_of_le (wf.compilers h) models

theorem wellFormed_start : WellFormed {} where
  readers {r s} h := by
    rw [Graph.readers_eq_nil] at h
    · cases h
    · cases r <;> simp [Graph.HasRegistry, Graph.property?, Graph.store_of_size_le, Table.size, Fields.get?]
  watchers h := absurd (Graph.exists_of_watcher? h) (Nat.not_lt_zero _)
  compilers h := absurd h (Nat.not_lt_zero _)

end Engine

theorem Run.wellFormed {h : History} {e : Engine} (run : Run h e) : e.WellFormed := by
  induction run with
  | start => exact Engine.wellFormed_start
  | move _ allowed ih => exact Engine.wellFormed_perform ih allowed

namespace Engine

variable {e e' : Engine} {m : Move} {s t : SubscriberId}

/-- Every hold that work under way or a compiler has is counted. -/
def Accounted (e : Engine) : Prop := ∀ s, e.bound s ≤ (e.graph.subscriber s).holders

theorem keeps_congr {g g' : Graph} (h : g'.compilers = g.compilers) (s : SubscriberId) :
    g'.keeps s = g.keeps s := by
  rw [Graph.keeps, Graph.keeps, h]

@[simp] theorem holds_hear (e : Engine) (event : Event) (listener : Listener) (t : SubscriberId) :
    Table.total (Frame.holds t) (e.hear event listener).frames = Table.total (Frame.holds t) e.frames := by
  rcases hear_cases e event listener with ⟨⟨turn, h⟩, -⟩
    | ⟨m, path, r, text, -, -, -, ⟨-, -, h⟩ | ⟨s, -, -, h⟩⟩
  · rw [h]
  · rw [h]
  · rw [h]
    simp [startWrite, startPass, Frame.holds]

theorem accounted_steps (h : Steps e e') (accounted : e.Accounted) : e'.Accounted := by
  intro t
  have keeps := keeps_congr (compilers_steps h) t
  have before := accounted t
  simp only [bound] at before ⊢
  rw [keeps]
  cases h with
  | @update g purpose running s pending failures frames alive =>
    have retained := Graph.holders_retain g s t (Graph.exists_of_alive alive)
    rw [frames_update, (steady_update _ _).holders]
    simp only [Table.total_cons, Frame.holds] at before ⊢
    cases running <;> simp only at before <;> omega
  | @delivery g n event first frames =>
    change _ ≤ (g.subscriber t).holders
    simp only [Table.total_cons, Frame.holds] at before ⊢
    omega
  | hear =>
    rw [(steady_hear _ _ _).holders, holds_hear]
    exact before
  | @run g s frames =>
    rw [Graph.holders_release]
    simp only [Table.total_cons, Frame.holds] at before ⊢
    omega
  | @acceptPass g purpose running pending failures frames r =>
    cases running with
    | none => exact before
    | some s =>
      simp only [Graph.releaseAny]
      rw [Graph.holders_release]
      simp only [Table.total_cons, Frame.holds] at before ⊢
      omega
  | @acceptRun g s frames r =>
    rw [Graph.holders_release]
    simp only [Table.total_cons, Frame.holds] at before ⊢
    omega
  | _ =>
    simp only [Table.total_cons, Frame.holds] at before ⊢
    omega

theorem Accounted.mono (accounted : e.Accounted)
    (frames : e'.frames = e.frames ∨ ∃ f, e'.frames = f :: e.frames ∧ ∀ t, f.holds t = 0)
    (compilers : e'.graph.compilers = e.graph.compilers)
    (holders : ∀ t, (e.graph.subscriber t).holders ≤ (e'.graph.subscriber t).holders) : e'.Accounted := by
  intro t
  refine Nat.le_trans ?_ (Nat.le_trans (accounted t) (holders t))
  rw [bound, bound, keeps_congr compilers]
  rcases frames with h | ⟨f, h, free⟩
  · exact Nat.le_of_eq (by rw [h])
  · exact Nat.le_of_eq (by rw [h, Table.total_cons, free, Nat.zero_add])

theorem holders_of_old {g g' : Graph}
    (old : ∀ t : SubscriberId, t.index < g.subscribers.size → g'.subscriber t = g.subscriber t) (t : SubscriberId) :
    (g.subscriber t).holders ≤ (g'.subscriber t).holders := by
  by_cases h : t.index < g.subscribers.size
  · exact Nat.le_of_eq (by rw [old t h])
  · have absent : g.subscriber t = default := Table.get_of_size_le _ (Nat.le_of_not_lt h)
    rw [absent]
    exact Nat.zero_le _

theorem holders_grows {g g' : Graph} (grows : Graph.Grows g g') (t : SubscriberId) :
    (g.subscriber t).holders ≤ (g'.subscriber t).holders :=
  holders_of_old (fun _ => grows.old) t

theorem accounted_retain (accounted : e.Accounted) (alive : e.graph.alive s) :
    ({ e with graph := e.graph.retain s } : Engine).Accounted := by
  refine accounted.mono (.inl rfl) rfl ?_
  intro t
  dsimp only
  rw [Graph.holders_retain _ _ _ (Graph.exists_of_alive alive)]
  exact Nat.le_add_right _ _

theorem accounted_run (accounted : e.Accounted) (alive : e.graph.alive s) : (e.run s).Accounted := by
  intro t
  have before := accounted t
  have retained := Graph.holders_retain e.graph s t (Graph.exists_of_alive alive)
  have steady := steady_update ⟨e.graph.retain s, .run s :: e.frames, e.turn⟩ s
  simp only [run, bound] at before ⊢
  rw [frames_update, steady.holders, keeps_congr steady.compilers]
  simp only [Table.total_cons, Frame.holds]
  rw [retained]
  have keeps : (e.graph.retain s).keeps t = e.graph.keeps t := rfl
  omega

theorem keeps_modify {g g' : Graph} {c : CompilerId} {d : Compiler} (hc : c.index < g.compilers.size)
    (h : g'.compilers = g.compilers.modify c.index fun _ => d) (t : SubscriberId) :
    g'.keeps t + (g.compiler c).holds t = g.keeps t + d.holds t := by
  rw [Graph.keeps, h]
  exact Table.total_entries_modify g.compilers (Compiler.holds t) c.index d hc

theorem count_newSubscribers (size count : Nat) (t : SubscriberId) :
    ((List.range' size count).map SubscriberId.mk).count t =
      if size ≤ t.index ∧ t.index < size + count then 1 else 0 := by
  have nodup : ((List.range' size count).map SubscriberId.mk).Nodup :=
    List.Pairwise.map _ (fun _ _ h h' => h (SubscriberId.mk.inj h')) List.nodup_range'
  rw [nodup.count]
  have mem : t ∈ (List.range' size count).map SubscriberId.mk ↔ size ≤ t.index ∧ t.index < size + count := by
    rw [List.mem_map]
    constructor
    · rintro ⟨i, hi, rfl⟩
      exact List.mem_range'_1.1 hi
    · intro h
      exact ⟨t.index, List.mem_range'_1.2 h, rfl⟩
  simp only [mem]

theorem accounted_init {c : CompilerId} (wf : e.WellFormed) (accounted : e.Accounted)
    (has : e.Has (.init c)) :
    (e.perform (.init c)).Accounted := by
  have initialized := Graph.initializes_init (wf.compilers has.1)
  obtain ⟨d, hd, -, hdropped, hwatchers⟩ := initialized.compilers
  have grows := initialized.extended.grows
  intro t
  have before := accounted t
  have keeps := keeps_modify has.1 hd t
  have holders := holders_grows grows t
  simp only [bound, perform] at before ⊢
  have old : (e.graph.compiler c).holds t = (e.graph.compiler c).watchers.count t := by
    simp only [Compiler.holds, has.2, Bool.false_eq_true, if_false]
  have new : d.holds t = d.watchers.count t := by
    simp only [Compiler.holds, hdropped, has.2, Bool.false_eq_true, if_false]
  rw [old, new] at keeps
  rcases hwatchers with ⟨hw, -⟩ | hw
  · rw [hw] at keeps
    omega
  · rw [hw, count_newSubscribers] at keeps
    split at keeps
    · next fresh =>
      -- nobody has kept what is only made now
      have size := grows.size
      obtain ⟨w, made⟩ := grows.fresh fresh.1 (by omega)
      have absent : e.graph.subscriber t = default := Table.get_of_size_le _ fresh.1
      rw [absent] at before
      rw [made.made]
      simp only [default] at before ⊢
      omega
    · omega

theorem accounted_dropCompiler {c : CompilerId} (accounted : e.Accounted) (has : e.Has (.dropCompiler c)) :
    (e.perform (.dropCompiler c)).Accounted := by
  intro t
  have before := accounted t
  have keeps := keeps_modify has.1 (compilers_dropCompiler e.graph c) t
  have holders := Graph.holders_releases (e.graph.compiler c).watchers
    (e.graph.setCompiler c { e.graph.compiler c with dropped := true }) t
  have same : (((e.graph.dropCompiler c).subscriber t).holders) = _ := holders
  simp only [bound, perform] at before ⊢
  rw [same]
  simp only [Compiler.holds, has.2, Bool.false_eq_true, if_false, if_true] at keeps
  have untouched :
    ((e.graph.setCompiler c { e.graph.compiler c with dropped := true }).subscriber t).holders =
      (e.graph.subscriber t).holders := rfl
  omega

theorem accounted_release (accounted : e.Accounted) (has : e.Has (.release s)) :
    (e.perform (.release s)).Accounted := by
  intro t
  have before := accounted t
  have keeps := keeps_congr (Graph.compilers_release e.graph s) t
  simp only [bound, perform] at before ⊢
  rw [Graph.holders_release, keeps]
  split
  · next h =>
    subst h
    simp only [Has, bound] at has
    omega
  · omega

theorem accounted_createCompiler {document : NodeId} {selector : String} {model : ModelId} (accounted : e.Accounted) :
    (e.perform (.createCompiler document selector model)).Accounted := by
  intro t
  have before := accounted t
  have keeps : (e.perform (.createCompiler document selector model)).graph.keeps t = e.graph.keeps t := by
    simp [Graph.keeps, perform, Graph.createCompiler, Table.add, Table.total_concat, Compiler.holds]
  rw [bound, keeps]
  exact before

theorem Accounted.begin {f : Frame} (accounted : e.Accounted) (frames : e'.frames = f :: e.frames)
    (free : ∀ t, f.holds t = 0) (compilers : e'.graph.compilers = e.graph.compilers)
    (subscribers : e'.graph.subscribers = e.graph.subscribers) : e'.Accounted := by
  refine accounted.mono (.inr ⟨f, frames, free⟩) compilers ?_
  intro t
  exact Nat.le_of_eq (by rw [Graph.subscriber_congr subscribers])

theorem accounted_perform (wf : e.WellFormed) (accounted : e.Accounted) (allowed : e.Allows m) :
    (e.perform m).Accounted := by
  have has := allowed.2
  cases m with
  | step => exact accounted_steps (steps_of_allows allowed) accounted
  | write s key v => exact accounted.begin rfl (fun _ => rfl) rfl rfl
  | writePath s path v =>
    simp only [perform, writePath]
    cases e.graph.walk? s path.parents with
    | none => exact accounted
    | some t => exact accounted.begin rfl (fun _ => rfl) rfl rfl
  | notify r =>
    exact accounted.begin rfl (fun _ => rfl) (by cases r <;> rfl) (Graph.subscribers_prune _ _)
  | run s => exact accounted_run accounted has
  | call m name event =>
    simp only [perform, call]
    cases (e.graph.model m).methods.get? name with
    | none => exact accounted
    | some callback => exact accounted.begin rfl (fun _ => rfl) rfl rfl
  | dispatch n event => exact accounted.begin rfl (fun _ => rfl) rfl rfl
  | input n text =>
    simp only [perform, input]
    cases e.graph.forest.setValue n text with
    | error err => exact accounted
    | ok forest => exact accounted.begin rfl (fun _ => rfl) rfl rfl
  | readPath reader s path =>
    have read := Graph.enrolled_readPath e.graph reader s path
    refine accounted.mono (.inl rfl) read.compilers ?_
    intro t
    exact Nat.le_of_eq (by rw [perform, Graph.subscriber_congr read.subscribers])
  | register r s =>
    have listed := Graph.enrolled_register e.graph r s
    refine accounted.mono (.inl rfl) listed.compilers ?_
    intro t
    exact Nat.le_of_eq (by rw [perform, Graph.subscriber_congr listed.subscribers])
  | createSubscriber identity callback =>
    refine accounted.mono (.inl rfl) rfl (holders_of_old fun t ht => ?_)
    simp [perform, Nat.ne_of_lt ht]
  | createWatcher m path callback =>
    have gains := Graph.gains_createWatcher e.graph m path (.call callback)
    exact accounted.mono (.inl rfl) gains.compilers (holders_grows (.of_gains gains ⟨has, rfl⟩))
  | retain s => exact accounted_retain accounted has
  | release s => exact accounted_release accounted has
  | createCompiler document selector m => exact accounted_createCompiler accounted
  | init c => exact accounted_init wf accounted has
  | dropCompiler c => exact accounted_dropCompiler accounted has
  | _ => exact accounted.mono (.inl rfl) rfl (fun _ => Nat.le_refl _)

end Engine

theorem Run.accounted {h : History} {e : Engine} (run : Run h e) : e.Accounted := by
  induction run with
  | start => exact fun _ => Nat.le_refl _
  | move run allowed ih => exact Engine.accounted_perform run.wellFormed ih allowed

/-- What holds of a watcher when it is made, and is kept by every later move, holds for good. A later move changes
nothing of a watcher but the value that it holds. -/
theorem Run.of_watcher {P : History → Engine → Watcher → Prop} {s : SubscriberId} {h : History} {e : Engine}
    {w : Watcher} (run : Run h e) (hw : e.graph.watcher? s = some w)
    (made : ∀ h e m w, Run h e → e.Allows m → e.graph.subscribers.size ≤ s.index → e.makes m s = true →
      (e.perform m).graph.watcher? s = some w → P ((e, m) :: h) (e.perform m) w)
    (kept : ∀ h e m w w', Run h e → e.Allows m → s.index < e.graph.subscribers.size → e.makes m s = false →
      e.graph.watcher? s = some w → (e.perform m).graph.watcher? s = some w' → w' = { w with value := w'.value } →
      P h e w → P ((e, m) :: h) (e.perform m) w') : P h e w := by
  induction run generalizing w with
  | start => exact absurd (Graph.exists_of_watcher? hw) (Nat.not_lt_zero _)
  | @move h e m run allowed ih =>
    by_cases hs : s.index < e.graph.subscribers.size
    · have old : e.makes m s = false := Bool.eq_false_iff.2 fun new => Nat.not_le_of_lt hs (Engine.makes_iff.1 new).1
      obtain ⟨w₀, hw₀, same⟩ := (Engine.changes_perform run.wellFormed allowed).watched_of_lt hs hw
      exact kept _ _ _ _ _ run allowed hs old hw₀ hw same (ih hw₀)
    · have new : e.makes m s = true := Engine.makes_iff.2 ⟨Nat.le_of_not_lt hs, Graph.exists_of_watcher? hw⟩
      exact made _ _ _ _ run allowed (Nat.le_of_not_lt hs) new hw

theorem Run.alive_of_compiler {h : History} {e : Engine} (run : Run h e) {c : CompilerId} {s : SubscriberId}
    (kept : (e.graph.compiler c).dropped = false) (mem : s ∈ (e.graph.compiler c).watchers) :
    e.graph.alive s := by
  have exist : c.index < e.graph.compilers.size := by
    apply Nat.lt_of_not_le
    intro hc
    have absent : e.graph.compiler c = default := Table.get_of_size_le _ hc
    rw [absent] at mem
    cases mem
  have holds : 0 < (e.graph.compiler c).holds s := by
    rw [Compiler.holds, kept]
    exact List.count_pos_iff.2 mem
  have share := Table.total_entries_modify e.graph.compilers (Compiler.holds s) c.index default exist
  have none : (default : Compiler).holds s = 0 := rfl
  have counted := run.accounted s
  rw [Engine.bound, Graph.keeps] at counted
  rw [Graph.compiler] at holds
  rw [Graph.alive, decide_eq_true_eq]
  omega

end DataBinding
