import DataBinding.Proofs.KeptSubscribers

namespace DataBinding

def Move.edited? : Move → Option Slot
  | .edit (.setText n _) => some (.text n)
  | .edit (.setAttribute n name _) | .edit (.removeAttribute n name) => some (.attr n name)
  | .edit (.setValue n _) | .input n _ => some (.value n)
  | _ => none

def Reaction.record? : Reaction → Option RecordId
  | .showValue _ r => some r
  | _ => none

def Listener.record? : Listener → Option RecordId
  | .input _ _ r => some r
  | _ => none

namespace Engine

def heard? (e : Engine) : Move → Option (NodeId × Event × Listener)
  | .step => match e.turn, e.frames with
    | .next, .delivery n event (listener :: _) _ :: _ => some (n, event, listener)
    | _, _ => none
  | _ => none

def watched? (e : Engine) (m : Move) : Option Watcher := (e.updated? m).bind e.graph.watcher?

def filled? (e : Engine) (m : Move) : Option Slot :=
  m.edited?.or ((e.watched? m).bind fun w => w.reaction.slot?)

def noted? (e : Engine) (m : Move) : Option RecordId :=
  ((e.watched? m).bind fun w => w.reaction.record?).or
    ((e.heard? m).bind fun (_, event, listener) => event.value.bind fun _ => listener.record?)

end Engine

/-- One slot may show something else and one record may hold something else. Nodes stay, and no listener for
text is new. -/
structure Leaves (filled : Option Slot) (noted : Option RecordId) (g g' : Graph) : Prop where
  size : g.forest.size ≤ g'.forest.size
  shows : ∀ {slot}, filled ≠ some slot → slot.node.index < g.forest.size →
    g'.forest.shows slot = g.forest.shows slot
  takes : ∀ {slot}, slot.node.index < g.forest.size → g'.forest.takes slot = g.forest.takes slot
  listeners : ∀ n, (g.forest.node n).listeners <+: (g'.forest.node n).listeners
  heard : ∀ {n kind m path r}, (kind, Listener.input m path r) ∈ (g'.forest.node n).listeners →
    (kind, Listener.input m path r) ∈ (g.forest.node n).listeners
  records : g'.records.size = g.records.size
  record : ∀ {r}, noted ≠ some r → g'.record r = g.record r

namespace Leaves

variable {filled : Option Slot} {noted : Option RecordId} {g g' g₁ g₂ g₃ : Graph} {slot : Slot}

theorem trans (h : Leaves filled noted g₁ g₂) (h' : Leaves filled noted g₂ g₃) :
    Leaves filled noted g₁ g₃ where
  size := Nat.le_trans h.size h'.size
  shows hne exist := (h'.shows hne (Nat.lt_of_lt_of_le exist h.size)).trans (h.shows hne exist)
  takes exist := (h'.takes (Nat.lt_of_lt_of_le exist h.size)).trans (h.takes exist)
  listeners n := (h.listeners n).trans (h'.listeners n)
  heard hl := h.heard (h'.heard hl)
  records := h'.records.trans h.records
  record hne := (h'.record hne).trans (h.record hne)

theorem of_carries (h : Forest.Carries g.forest g'.forest) (records : g'.records = g.records) :
    Leaves filled noted g g' where
  size := h.size
  shows _ exist := by rw [Forest.shows, h.content exist, Forest.shows]
  takes exist := by rw [Forest.takes, h.content exist, Forest.takes]
  listeners n := by simp only [h.listeners, List.prefix_rfl]
  heard {n _ _ _ _} hl := by rwa [h.listeners n] at hl
  records := by rw [records]
  record _ := by rw [Graph.record, records, Graph.record]

theorem of_keeps (h : Forest.Keeps g.forest g'.forest) (records : g'.records = g.records) :
    Leaves filled noted g g' := of_carries h.carries records

theorem of_same (forest : g'.forest = g.forest) (records : g'.records = g.records) :
    Leaves filled noted g g' := by
  apply of_keeps _ records
  rw [forest]
  exact .refl _

theorem refl (g : Graph) : Leaves filled noted g g := of_same rfl rfl

theorem of_spares (h : Forest.Spares slot g.forest g'.forest) (records : g'.records = g.records) :
    Leaves (some slot) noted g g' where
  size := h.size
  shows hne exist := h.shows (fun same => hne (by rw [same])) exist
  takes := h.takes
  listeners n := by simp only [h.listeners, List.prefix_rfl]
  heard {n _ _ _ _} hl := by rwa [h.listeners n] at hl
  records := by rw [records]
  record _ := by rw [Graph.record, records, Graph.record]

theorem of_listen {n : NodeId} {event : String} {listener : Listener}
    (forest : g'.forest = g.forest.listen n event listener) (quiet : listener.record? = none)
    (records : g'.records = g.records) : Leaves filled noted g g' where
  size := by
    rw [forest]
    exact Nat.le_of_eq (Forest.size_modify _ _ _).symm
  shows _ _ := by rw [forest, Forest.shows, Forest.content_listen, Forest.shows]
  takes _ := by rw [forest, Forest.takes, Forest.content_listen, Forest.takes]
  listeners n' := by
    rw [forest, Forest.listeners_listen]
    split
    · exact List.prefix_append _ _
    · exact List.prefix_refl _
  heard {n' kind m path r} hl := by
    rw [forest, Forest.listeners_listen] at hl
    split at hl
    · rcases List.mem_append.1 hl with hl | hl
      · exact hl
      · rw [List.mem_singleton, Prod.mk.injEq] at hl
        rw [← hl.2] at quiet
        cases quiet
    · exact hl
  records := by rw [records]
  record _ := by rw [Graph.record, records, Graph.record]

theorem setRecord (g : Graph) (r : RecordId) (v : Value) : Leaves filled (some r) g (g.setRecord r v) where
  size := Nat.le_refl _
  shows _ _ := rfl
  takes _ := rfl
  listeners _ := List.prefix_refl _
  heard hl := hl
  records := Graph.size_setRecord _ _ _
  record {r'} hne := by
    rw [Graph.record_setRecord, if_neg]
    rintro ⟨rfl, -⟩
    exact hne rfl

end Leaves

namespace Graph

theorem keeps_release (g : Graph) (s : SubscriberId) : Forest.Keeps g.forest (g.release s).forest := by
  unfold release
  dsimp only
  split
  · split
    · exact Forest.keeps_release _ _
    · exact .refl _
  · exact .refl _

@[simp] theorem records_release (g : Graph) (s : SubscriberId) : (g.release s).records = g.records := by
  unfold release
  dsimp only
  split
  · split <;> rfl
  · rfl

theorem leaves_release (filled : Option Slot) (noted : Option RecordId) (g : Graph) (s : SubscriberId) :
    Leaves filled noted g (g.release s) := .of_keeps (keeps_release g s) (records_release g s)

theorem leaves_releases (filled : Option Slot) (noted : Option RecordId) (ss : List SubscriberId)
    (g : Graph) :
    Leaves filled noted g (ss.foldl Graph.release g) := by
  induction ss generalizing g with
  | nil => exact .refl g
  | cons s ss ih => exact (leaves_release filled noted g s).trans (ih _)

end Graph

namespace Engine

variable {e e' : Engine} {m : Move} {s : SubscriberId} {filled : Option Slot} {noted : Option RecordId}

theorem leaves_edit (noted : Option RecordId) (g : Graph) (change : Edit) :
    Leaves (Move.edit change).edited? noted g { g with forest := change.apply g.forest } := by
  cases change with
  | createDocument trees => exact .of_carries (Forest.carries_createDocument _ _) rfl
  | createElement tag => exact .of_carries (Forest.carries_create _ _) rfl
  | createText content => exact .of_carries (Forest.carries_create _ _) rfl
  | createFragment => exact .of_carries (Forest.carries_create _ _) rfl
  | append p c =>
    simp only [Edit.apply]
    cases h : g.forest.append p c with
    | error err => exact .refl g
    | ok f => exact .of_keeps (Forest.keeps_append h) rfl
  | setAttribute n name value =>
    simp only [Edit.apply]
    cases h : g.forest.setAttribute n name value with
    | error err => exact .refl g
    | ok f => exact .of_spares (Forest.spares_setAttribute h) rfl
  | removeAttribute n name => exact .of_spares (Forest.spares_removeAttribute _ _ _) rfl
  | setText n text =>
    simp only [Edit.apply]
    cases h : g.forest.setText n text with
    | error err => exact .refl g
    | ok f => exact .of_spares (Forest.spares_setText h) rfl
  | setValue n value =>
    simp only [Edit.apply]
    cases h : g.forest.setValue n value with
    | error err => exact .refl g
    | ok f => exact .of_spares (Forest.spares_setValue h) rfl
  | listen n event callback => exact .of_listen rfl rfl rfl
  | retain n => exact .of_keeps (Forest.keeps_retain _ _) rfl
  | release n => exact .of_keeps (Forest.keeps_release _ _) rfl

theorem leaves_update (e : Engine) (s : SubscriberId) :
    Leaves ((e.graph.watcher? s).bind fun w => w.reaction.slot?)
      ((e.graph.watcher? s).bind fun w => w.reaction.record?) e.graph (e.update s).graph := by
  have evaluated (w : Watcher) := Graph.enrolled_evaluate e.graph s w
  have updates := updates_update e s
  generalize e.update s = e' at updates
  cases updates with
  | notified _ => exact .refl _
  | @same w _ _ => exact .of_same (evaluated w).forest (evaluated w).records
  | @called w _ _ _ _ => exact .of_same (evaluated w).forest (evaluated w).records
  | @filled w slot f watcher _ hslot fill =>
    rw [watcher, Option.bind_some, Option.bind_some, hslot]
    have spares := Forest.spares_fill fill
    have renewed : Leaves (some slot) w.reaction.record? e.graph (e.graph.renew s w) :=
      .of_same (evaluated w).forest (evaluated w).records
    have forest := (evaluated w).forest
    refine renewed.trans ?_
    cases hr : w.reaction with
    | showValue n r =>
      refine (Leaves.setRecord _ r (e.graph.current w)).trans (.of_spares ?_ rfl)
      change Forest.Spares slot (e.graph.evaluate s w).2.forest f
      rw [forest]
      exact spares
    | _ =>
      refine .of_spares ?_ rfl
      change Forest.Spares slot (e.graph.evaluate s w).2.forest f
      rw [forest]
      exact spares
  | @failed w _ _ _ _ _ _ => exact .of_same (evaluated w).forest (evaluated w).records

theorem leaves_hear (e : Engine) (event : Event) (listener : Listener) :
    Leaves filled (event.value.bind fun _ => listener.record?) e.graph (e.hear event listener).graph := by
  rcases hear_cases e event listener with ⟨⟨turn, h⟩, -⟩
    | ⟨m, path, r, text, hl, ht, -, ⟨-, -, h⟩ | ⟨t, -, -, h⟩⟩
  · rw [h]
    exact .refl _
  · rw [h, hl, ht]
    exact .setRecord _ _ _
  · rw [h, hl, ht]
    exact (Leaves.setRecord _ r (.string text)).trans (.of_same rfl rfl)

theorem leaves_updated (g : Graph) (frames : List Frame) (turn : Turn) (s : SubscriberId) :
    Leaves ((g.watcher? s).bind fun w => w.reaction.slot?) ((g.watcher? s).bind fun w => w.reaction.record?) g
      (update ⟨g.retain s, frames, turn⟩ s).graph := by
  have updated := leaves_update ⟨g.retain s, frames, turn⟩ s
  rw [watcher?_retain] at updated
  have retained : Leaves ((g.watcher? s).bind fun w => w.reaction.slot?)
      ((g.watcher? s).bind fun w => w.reaction.record?) g (g.retain s) := .of_same rfl rfl
  exact retained.trans updated

theorem leaves_steps (h : Steps e e') : Leaves (e.filled? .step) (e.noted? .step) e.graph e'.graph := by
  cases h with
  | @update g purpose running s pending failures frames alive =>
    have updated := leaves_updated g (.pass purpose (some s) pending failures :: frames) .next s
    simpa only [filled?, noted?, watched?, updated?, heard?, alive, if_true, Option.bind_some, Move.edited?,
      Option.none_or, Option.bind_none, Option.or_none] using updated
  | @hear g n event listener pending first frames =>
    exact leaves_hear ⟨g, .delivery n event pending first :: frames, .next⟩ event listener
  | delivery => exact .of_keeps (Forest.keeps_release _ _) rfl
  | run => exact Graph.leaves_release _ _ _ _
  | @acceptPass _ _ running _ _ _ _ =>
    cases running with
    | none => exact .refl _
    | some s => exact Graph.leaves_release _ _ _ _
  | acceptRun => exact Graph.leaves_release _ _ _ _
  | _ => exact .refl _

theorem leaves_perform (allowed : e.Allows m) (started : ∀ c, m ≠ .init c) :
    Leaves (e.filled? m) (e.noted? m) e.graph (e.perform m).graph := by
  cases m with
  | step => exact leaves_steps (steps_of_allows allowed)
  | writePath s path v =>
    simp only [perform, writePath]
    cases e.graph.walk? s path.parents <;> exact .of_same rfl rfl
  | notify r => cases r <;> exact .of_same rfl rfl
  | run s =>
    have updated := leaves_updated e.graph (.run s :: e.frames) e.turn s
    simp only [filled?, noted?, watched?, updated?, heard?, Option.bind_some, Move.edited?, Option.none_or,
      Option.bind_none, Option.or_none]
    exact updated
  | call m name event =>
    simp only [perform, call]
    cases (e.graph.model m).methods.get? name <;> exact .refl _
  | dispatch n event => exact .of_keeps (Forest.keeps_retain _ _) rfl
  | input n text =>
    simp only [perform, input]
    cases h : e.graph.forest.setValue n text with
    | error err => exact .refl _
    | ok f =>
      have written :
          Leaves (some (.value n)) (e.noted? (.input n text)) e.graph { e.graph with forest := f } :=
        .of_spares (Forest.spares_setValue h) rfl
      exact written.trans (.of_keeps (Forest.keeps_retain f n) rfl)
  | readPath reader s path =>
    have enrolled := Graph.enrolled_readPath e.graph reader s path
    exact .of_same enrolled.forest enrolled.records
  | register r s =>
    have enrolled := Graph.enrolled_register e.graph r s
    exact .of_same enrolled.forest enrolled.records
  | createWatcher m path callback =>
    have gains := Graph.gains_createWatcher e.graph m path (.call callback)
    exact .of_keeps gains.keeps (Graph.records_createWatcher e.graph m path (.call callback))
  | release s => exact Graph.leaves_release _ _ _ _
  | createCompiler document selector m => exact .of_keeps (Forest.keeps_retain _ _) rfl
  | init c => exact absurd rfl (started c)
  | dropCompiler c =>
    have released := Graph.leaves_releases (e.filled? (.dropCompiler c)) (e.noted? (.dropCompiler c))
      (e.graph.compiler c).watchers (e.graph.setCompiler c { e.graph.compiler c with dropped := true })
    have dropped : Leaves (e.filled? (.dropCompiler c)) (e.noted? (.dropCompiler c)) e.graph
        (e.graph.setCompiler c { e.graph.compiler c with dropped := true }) := .of_same rfl rfl
    refine (dropped.trans released).trans (.of_keeps ?_ rfl)
    exact Forest.keeps_foldl Forest.keeps_release _ _
  | edit change =>
    have edited := leaves_edit (e.noted? (.edit change)) e.graph change
    have same : e.filled? (.edit change) = (Move.edit change).edited? := by
      simp only [filled?, watched?, updated?, Option.bind_none, Option.or_none]
    rw [same]
    exact edited
  | _ => exact .of_same rfl rfl

end Engine

end DataBinding
