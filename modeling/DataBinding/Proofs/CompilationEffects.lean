import DataBinding.Compilation
import DataBinding.Proofs.AddedWatchers

namespace DataBinding

namespace Graph

variable {g g' g₁ g₂ g₃ : Graph} {slot : Slot}

def Renders (g g' : Graph) (slot : Slot) : Prop :=
  (g'.forest.shows slot = none ∧ ∀ n, slot ≠ .value n) ∨
    (g'.forest.shows slot = g.forest.shows slot ∧
      ∀ s w, g.subscribers.size ≤ s.index → g'.watcher? s = some w → w.reaction.slot? ≠ some slot) ∨
    ∃ s w, g.subscribers.size ≤ s.index ∧ g'.watcher? s = some w ∧ w.reaction.slot? = some slot ∧
      g'.forest.shows slot = some w.value.text

theorem Renders.trans (grows : Grows g₁ g₂) (grows' : Grows g₂ g₃) (h : Renders g₁ g₂ slot)
    (h' : Renders g₂ g₃ slot) : Renders g₁ g₃ slot := by
  rcases h' with h' | ⟨same', none'⟩ | ⟨s, w, hs, hw, hslot, hshow⟩
  · exact .inl h'
  · rcases h with ⟨h, other⟩ | ⟨same, none⟩ | ⟨s, w, hs, hw, hslot, hshow⟩
    · exact .inl ⟨same'.trans h, other⟩
    · refine .inr (.inl ⟨same'.trans same, ?_⟩)
      intro s w hs hw
      by_cases hm : s.index < g₂.subscribers.size
      · apply none s w hs
        rwa [grows'.watcher? hm] at hw
      · exact none' s w (Nat.le_of_not_lt hm) hw
    · refine .inr (.inr ⟨s, w, hs, ?_, hslot, same'.trans hshow⟩)
      rwa [grows'.watcher? (exists_of_watcher? hw)]
  · exact .inr (.inr ⟨s, w, Nat.le_trans grows.size hs, hw, hslot, hshow⟩)

/-- New model bindings: each has a record of its own, which holds what its watcher holds, and listens to its
node. Nothing else listens for text. -/
structure Wires (g g' : Graph) : Prop where
  size : g.records.size ≤ g'.records.size
  record : ∀ {r}, r.index < g.records.size → g'.record r = g.record r
  listeners : ∀ n, (g.forest.node n).listeners <+: (g'.forest.node n).listeners
  wired : ∀ {s w n r}, g.subscribers.size ≤ s.index → g'.watcher? s = some w → w.reaction = .showValue n r →
    (g.records.size ≤ r.index ∧ r.index < g'.records.size) ∧ g'.record r = w.value ∧
      ("input", Listener.input w.model w.path r) ∈ (g'.forest.node n).listeners
  apart : ∀ {s s' w w' n n' r}, g.subscribers.size ≤ s.index → g.subscribers.size ≤ s'.index →
    g'.watcher? s = some w → g'.watcher? s' = some w' → w.reaction = .showValue n r →
    w'.reaction = .showValue n' r → s = s'
  heard : ∀ {n kind m path r}, (kind, Listener.input m path r) ∈ (g'.forest.node n).listeners →
    (kind, Listener.input m path r) ∈ (g.forest.node n).listeners ∨
      (kind = "input" ∧ ∃ s w, g.subscribers.size ≤ s.index ∧ g'.watcher? s = some w ∧ w.model = m ∧
        w.path = path ∧ w.reaction = .showValue n r)

theorem Wires.trans (grows : Grows g₁ g₂) (grows' : Grows g₂ g₃) (h : Wires g₁ g₂) (h' : Wires g₂ g₃) :
    Wires g₁ g₃ where
  size := Nat.le_trans h.size h'.size
  record hr := (h'.record (Nat.lt_of_lt_of_le hr h.size)).trans (h.record hr)
  listeners n := (h.listeners n).trans (h'.listeners n)
  wired {s w n r} hs hw hreact := by
    by_cases hm : s.index < g₂.subscribers.size
    · rw [grows'.watcher? hm] at hw
      obtain ⟨⟨hlo, hhi⟩, hrecord, hlistener⟩ := h.wired hs hw hreact
      exact ⟨⟨hlo, Nat.lt_of_lt_of_le hhi h'.size⟩, (h'.record hhi).trans hrecord,
        (h'.listeners n).subset hlistener⟩
    · obtain ⟨⟨hlo, hhi⟩, hrecord, hlistener⟩ := h'.wired (Nat.le_of_not_lt hm) hw hreact
      exact ⟨⟨Nat.le_trans h.size hlo, hhi⟩, hrecord, hlistener⟩
  apart {s s' w w' n n' r} hs hs' hw hw' hreact hreact' := by
    by_cases hm : s.index < g₂.subscribers.size
    · by_cases hm' : s'.index < g₂.subscribers.size
      · rw [grows'.watcher? hm] at hw
        rw [grows'.watcher? hm'] at hw'
        exact h.apart hs hs' hw hw' hreact hreact'
      · rw [grows'.watcher? hm] at hw
        have early := (h.wired hs hw hreact).1.2
        have late := (h'.wired (Nat.le_of_not_lt hm') hw' hreact').1.1
        exact absurd early (Nat.not_lt_of_le late)
    · by_cases hm' : s'.index < g₂.subscribers.size
      · rw [grows'.watcher? hm'] at hw'
        have early := (h.wired hs' hw' hreact').1.2
        have late := (h'.wired (Nat.le_of_not_lt hm) hw hreact).1.1
        exact absurd early (Nat.not_lt_of_le late)
      · exact h'.apart (Nat.le_of_not_lt hm) (Nat.le_of_not_lt hm') hw hw' hreact hreact'
  heard hl := by
    rcases h'.heard hl with hl | ⟨hkind, s, w, hs, hw, hrest⟩
    · rcases h.heard hl with hl | ⟨hkind, s, w, hs, hw, hrest⟩
      · exact .inl hl
      · refine .inr ⟨hkind, s, w, hs, ?_, hrest⟩
        rwa [grows'.watcher? (exists_of_watcher? hw)]
    · exact .inr ⟨hkind, s, w, Nat.le_trans grows.size hs, hw, hrest⟩

theorem Wires.of_quiet (subscribers : g'.subscribers = g.subscribers) (records : g'.records = g.records)
    (listeners : ∀ n, (g.forest.node n).listeners <+: (g'.forest.node n).listeners)
    (heard : ∀ {n kind m path r}, (kind, Listener.input m path r) ∈ (g'.forest.node n).listeners →
      (kind, Listener.input m path r) ∈ (g.forest.node n).listeners) : Wires g g' := by
  have absurd_new {s : SubscriberId} {w : Watcher} (hs : g.subscribers.size ≤ s.index)
      (hw : g'.watcher? s = some w) : False := by
    have := exists_of_watcher? hw
    rw [subscribers] at this
    omega
  exact {
    size := Nat.le_of_eq (by rw [records])
    record := fun _ => by rw [Graph.record, Graph.record, records]
    listeners := listeners
    wired := fun hs hw _ => (absurd_new hs hw).elim
    apart := fun hs _ hw _ _ _ => (absurd_new hs hw).elim
    heard := fun hl => .inl (heard hl) }

theorem Renders.of_quiet (subscribers : g'.subscribers = g.subscribers)
    (shows : (g'.forest.shows slot = none ∧ ∀ n, slot ≠ .value n) ∨
      g'.forest.shows slot = g.forest.shows slot) :
    Renders g g' slot := by
  rcases shows with h | h
  · exact .inl h
  · refine .inr (.inl ⟨h, ?_⟩)
    intro s w hs hw
    have := exists_of_watcher? hw
    rw [subscribers] at this
    omega

structure Extends (g g' : Graph) : Prop where
  grows : Grows g g'
  wires : Wires g g'
  renders : ∀ slot, Renders g g' slot

theorem Extends.trans (h : Extends g₁ g₂) (h' : Extends g₂ g₃) : Extends g₁ g₃ where
  grows := h.grows.trans h'.grows
  wires := h.wires.trans h.grows h'.grows h'.wires
  renders slot := (h.renders slot).trans h.grows h'.grows (h'.renders slot)

theorem Extends.of_content {f : Forest} {compilers : Table Compiler}
    (content : ∀ n, f.content n = g.forest.content n)
    (listeners : ∀ n, (f.node n).listeners = (g.forest.node n).listeners) :
    Extends g { g with forest := f, compilers } where
  grows := .of_same rfl rfl rfl rfl
  wires := .of_quiet rfl rfl (fun n => by simp only [listeners, List.prefix_rfl])
    (fun {n _ _ _ _} h => by rwa [listeners n] at h)
  renders slot := .of_quiet rfl (.inr (by rw [Forest.shows, content, Forest.shows]))

end Graph

open DataBinding.Graph (Grows Gains Renders Wires Extends)

/-- What compilation makes of its progress. The nodes stay, and so do the slots that they have. -/
structure Compiled (p p' : Progress) : Prop where
  graph : Extends p.graph p'.graph
  size : p'.graph.forest.size = p.graph.forest.size
  takes : ∀ slot, p'.graph.forest.takes slot = p.graph.forest.takes slot
  compilers : p'.graph.compilers = p.graph.compilers
  watchers : p'.watchers = p.watchers ++ (List.range' p.graph.subscribers.size
    (p'.graph.subscribers.size - p.graph.subscribers.size)).map SubscriberId.mk

variable {p p' p₁ p₂ p₃ : Progress} {f : Forest} {s : SubscriberId} {w : Watcher} {slot : Slot}

namespace Compiled

theorem trans (h : Compiled p₁ p₂) (h' : Compiled p₂ p₃) : Compiled p₁ p₃ where
  graph := h.graph.trans h'.graph
  size := h'.size.trans h.size
  takes slot := (h'.takes slot).trans (h.takes slot)
  compilers := h'.compilers.trans h.compilers
  watchers := by
    have hle := h.graph.grows.size
    have hle' := h'.graph.grows.size
    rw [h'.watchers, h.watchers, List.append_assoc, ← List.map_append]
    congr 2
    have split : p₃.graph.subscribers.size - p₁.graph.subscribers.size =
        (p₂.graph.subscribers.size - p₁.graph.subscribers.size) +
          (p₃.graph.subscribers.size - p₂.graph.subscribers.size) := by omega
    have start : p₂.graph.subscribers.size =
        p₁.graph.subscribers.size + (p₂.graph.subscribers.size - p₁.graph.subscribers.size) := by omega
    rw [split, ← List.range'_append_1, ← start]

theorem of_forest (graph : p'.graph = { p.graph with forest := f }) (watchers : p'.watchers = p.watchers)
    (size : f.size = p.graph.forest.size) (takes : ∀ slot, f.takes slot = p.graph.forest.takes slot)
    (shows : ∀ slot, (f.shows slot = none ∧ ∀ n, slot ≠ .value n) ∨ f.shows slot = p.graph.forest.shows slot)
    (listeners : ∀ n, (p.graph.forest.node n).listeners <+: (f.node n).listeners)
    (heard : ∀ {n kind m path r}, (kind, Listener.input m path r) ∈ (f.node n).listeners →
      (kind, Listener.input m path r) ∈ (p.graph.forest.node n).listeners) : Compiled p p' := by
  obtain ⟨g', ws', ds'⟩ := p'
  dsimp only at graph watchers
  subst graph watchers
  exact {
    graph := ⟨.of_same rfl rfl rfl rfl, .of_quiet rfl rfl listeners heard,
      fun slot => .of_quiet rfl (shows slot)⟩
    size
    takes
    compilers := rfl
    watchers := by simp }

theorem of_graph (graph : p'.graph = p.graph) (watchers : p'.watchers = p.watchers) : Compiled p p' :=
  of_forest (f := p.graph.forest) graph watchers rfl (fun _ => rfl) (fun _ => .inr rfl)
    (fun _ => List.prefix_refl _) (fun h => h)

theorem refl (p : Progress) : Compiled p p := of_graph rfl rfl

end Compiled

theorem compiled_binding {g g₁ : Graph} (gains : Gains p.graph g₁ s w) (fits : p.graph.Fits w)
    (same : g = { g₁ with forest := f, records := g.records }) (target : w.reaction.slot? = some slot)
    (shows : f.shows slot = some w.value.text)
    (others : ∀ other, other ≠ slot → f.shows other = p.graph.forest.shows other)
    (takes : ∀ other, f.takes other = p.graph.forest.takes other) (size : f.size = p.graph.forest.size)
    (wires : Wires p.graph g) : Compiled p { p with graph := g, watchers := p.watchers ++ [s] } where
  graph.grows := (Grows.of_gains gains fits).trans (by rw [same]; exact .of_same rfl rfl rfl rfl)
  graph.wires := wires
  graph.renders other := by
    have hf : g.forest = f := by rw [same]
    by_cases h : other = slot
    · subst h
      refine .inr (.inr ⟨s, w, Nat.le_of_eq (by rw [gains.name]), ?_, target, by rw [hf, shows]⟩)
      rw [same]
      exact gains.watcher?_new
    · refine .inr (.inl ⟨by rw [hf, others other h], ?_⟩)
      intro t v ht hv
      rw [same] at hv
      obtain ⟨-, rfl⟩ := gains.eq_of_watcher? ht hv
      intro hother
      rw [target] at hother
      exact h (Option.some.inj hother).symm
  size := by rw [same, size]
  takes other := by rw [same, takes]
  compilers := by rw [same, gains.compilers]
  watchers := by rw [same, gains.size, gains.name, Nat.add_sub_cancel_left]; rfl

namespace Compilation

variable {α β : Type} {m : ModelId} {n : NodeId}

def Leads (m : ModelId) (p : Progress) (x : Compilation α) : Prop :=
  m.index < p.graph.models.size → Compiled p (x.run.run p).2

theorem run_bind (x : Compilation α) (next : α → Compilation β) (p : Progress) :
    (x >>= next).run.run p = match x.run.run p with
      | (.ok a, p') => (next a).run.run p'
      | (.error e, p') => (.error e, p') := by
  simp only [ExceptT.run_bind, StateT.run_bind]
  generalize x.run.run p = r
  obtain ⟨a | a, q⟩ := r <;> rfl

theorem leads_bind {x : Compilation α} {next : α → Compilation β} (hx : Leads m p x)
    (hnext : ∀ {a p'}, x.run.run p = (.ok a, p') → Compiled p p' → Leads m p' (next a)) :
    Leads m p (x >>= next) := by
  intro hm
  have first := hx hm
  rw [run_bind]
  split
  · next h =>
    rw [h] at first
    exact first.trans (hnext h first (by rw [first.graph.grows.models]; exact hm))
  · next h =>
    rw [h] at first
    exact first

theorem leads_graph {next : Graph → Compilation β} (h : Leads m p (next p.graph)) :
    Leads m p (graph >>= next) := h

theorem leads_pure (a : α) : Leads m p (pure a) := fun _ => .refl p

theorem leads_throw (e : Error) : Leads m p (throw e : Compilation α) := fun _ => .refl p

theorem leads_report (d : Diagnostic) : Leads m p (report d) := fun _ => .of_graph rfl rfl

theorem leads_refuse (strict : Bool) (e : Error) (d : Diagnostic) : Leads m p (refuse strict e d) := by
  unfold refuse
  split
  · exact leads_throw e
  · exact leads_report d

theorem run_graph (next : Graph → Compilation β) (p : Progress) :
    (graph >>= next).run.run p = (next p.graph).run.run p := rfl

theorem run_changeForest {change : Forest → Except DocumentError Forest} (h : change p.graph.forest = .ok f) :
    (changeForest change).run.run p = (.ok (), { p with graph := { p.graph with forest := f } }) := by
  rw [changeForest, run_graph, h]
  rfl

theorem run_changeForest_error {change : Forest → Except DocumentError Forest}
    (h : change p.graph.forest = .error err) :
    (changeForest change).run.run p = (.error (.document err), p) := by
  rw [changeForest, run_graph, h]
  rfl

@[simp] theorem run_setGraph (g : Graph) (p : Progress) :
    (setGraph g).run.run p = (.ok (), { p with graph := g }) := rfl

@[simp] theorem run_watch_eq (m : ModelId) (path : Path) (reaction : Reaction) (p : Progress) :
    (watch m path reaction).run.run p =
      (.ok (p.graph.valueAt (p.graph.model m).data path),
        { p with
          graph := (p.graph.createWatcher m path reaction).2
          watchers := p.watchers ++ [(p.graph.createWatcher m path reaction).1] }) := by
  rw [watch, run_graph, run_bind]
  change (Except.ok (Option.getD (Option.map Watcher.value _) Value.undefined), _) = _
  rw [(Graph.gains_createWatcher p.graph m path reaction).watcher?_new]
  rfl

theorem run_watch (m : ModelId) (path : Path) (reaction : Reaction) (p : Progress) :
    ∃ s g, Gains p.graph g s (p.graph.newWatcher m path reaction) ∧ g.records = p.graph.records ∧
      (watch m path reaction).run.run p =
        (.ok (p.graph.valueAt (p.graph.model m).data path),
          { p with graph := g, watchers := p.watchers ++ [s] }) :=
  ⟨_, _, Graph.gains_createWatcher p.graph m path reaction, Graph.records_createWatcher _ _ _ _,
    run_watch_eq m path reaction p⟩

theorem leads_show (path : Path) {reaction : Reaction} (target : reaction.slot? = some slot)
    (quiet : ∀ n r, reaction ≠ .showValue n r) (takes : p.graph.forest.takes slot) :
    Leads m p (do
      let v ← watch m path reaction
      changeForest (·.fill slot v.text)) := by
  intro hm
  obtain ⟨s, g, gains, records, hrun⟩ := run_watch m path reaction p
  have takes' : g.forest.takes slot := by rwa [gains.keeps.takes]
  obtain ⟨f, hfill, hshow, hsize⟩ :=
    Forest.fill_of_takes takes' (p.graph.valueAt (p.graph.model m).data path).text
  have spares := gains.keeps.carries.spares.trans (Forest.spares_fill hfill)
  have size := hsize.trans gains.keeps.size
  rw [run_bind, hrun]
  dsimp only
  rw [run_changeForest hfill]
  refine compiled_binding gains ⟨hm, rfl⟩ rfl target hshow (fun _ => spares.shows_of_size size)
    (fun _ => spares.takes_of_size size) size ?_
  refine {
    size := Nat.le_of_eq (by rw [records])
    record := fun _ => by rw [Graph.record, Graph.record, records]
    listeners := fun n => by simp only [spares.listeners, List.prefix_rfl]
    wired := ?_
    apart := ?_
    heard := fun {n _ _ _ _} hl => .inl (by rwa [spares.listeners n] at hl) }
  · intro t w n r ht hw hreact
    obtain ⟨-, rfl⟩ := gains.eq_of_watcher? ht hw
    exact absurd hreact (quiet n r)
  · intro t _ w _ n _ r ht _ hw _ hreact _
    obtain ⟨-, rfl⟩ := gains.eq_of_watcher? ht hw
    exact absurd hreact (quiet n r)

theorem leads_resolve (source expression : String) : Leads m p (resolve m source expression) := by
  apply leads_graph
  dsimp only
  split
  · exact leads_bind (leads_refuse _ _ _) fun _ _ => leads_pure _
  · apply leads_graph
    split
    · exact leads_pure _
    · exact leads_bind (leads_refuse _ _ _) fun _ _ => leads_pure _

theorem leads_compileText (expression : String) (takes : p.graph.forest.takes (.text n)) :
    Leads m p (compileText m n expression) := by
  refine leads_bind (leads_resolve _ _) ?_
  intro path? p' _ compiled
  cases path? with
  | none => exact leads_pure _
  | some path =>
    rw [← compiled.takes] at takes
    have target : (Reaction.showText n).slot? = some (.text n) := rfl
    have shown := leads_show (m := m) path target nofun takes
    simp only [Forest.fill] at shown
    exact shown

theorem leads_compileBind (directive name expression : String) (takes : p.graph.forest.takes (.attr n name)) :
    Leads m p (compileBind m n directive name expression) := by
  refine leads_bind (leads_resolve _ _) ?_
  intro path? p' _ compiled
  cases path? with
  | none => exact leads_pure _
  | some path =>
    rw [← compiled.takes] at takes
    have target : (Reaction.showAttribute n name).slot? = some (.attr n name) := rfl
    have shown := leads_show (m := m) path target nofun takes
    simp only [Forest.fill] at shown
    exact shown

@[simp] theorem run_changeForest_ok (change : Forest → Forest) (p : Progress) :
    (changeForest fun f => .ok (change f)).run.run p =
      (.ok (), { p with graph := { p.graph with forest := change p.graph.forest } }) := rfl

theorem wires_binding {g g₁ g' : Graph} (gains : Gains g g₁ s w)
    (target : w.reaction = .showValue n ⟨g.records.size⟩) (subscribers : g'.subscribers = g₁.subscribers)
    (records : g'.records = (g.records.add .undefined).modify g.records.size fun _ => w.value)
    (listeners : ∀ n', (g'.forest.node n').listeners = if n' = n
      then (g.forest.node n').listeners ++ [("input", .input w.model w.path ⟨g.records.size⟩)]
      else (g.forest.node n').listeners) : Wires g g' := by
  have only {t : SubscriberId} {v : Watcher} (ht : g.subscribers.size ≤ t.index)
      (hv : g'.watcher? t = some v) :
      t = s ∧ v = w := by
    rw [Graph.watcher?_congr subscribers] at hv
    exact gains.eq_of_watcher? ht hv
  have size : g'.records.size = g.records.size + 1 := by
    simp [records]
  have record (r : RecordId) : g'.record r = if r.index = g.records.size then w.value else g.record r := by
    rw [Graph.record, records, Table.get_modify, Table.get_add, Table.size_add]
    by_cases new : r.index = g.records.size <;> simp [new, Graph.record]
  exact {
    size := by rw [size]; exact Nat.le_succ _
    record := fun hr => by rw [record, if_neg (Nat.ne_of_lt hr)]
    listeners := fun n' => by
      rw [listeners]
      split
      · exact List.prefix_append _ _
      · exact List.prefix_refl _
    wired := fun {t v n' r'} ht hv hreact => by
      obtain ⟨-, rfl⟩ := only ht hv
      rw [target] at hreact
      cases hreact
      refine ⟨⟨Nat.le_refl _, by rw [size]; exact Nat.lt_succ_self _⟩, by rw [record, if_pos rfl], ?_⟩
      rw [listeners, if_pos rfl]
      simp
    apart := fun ht ht' hv hv' _ _ => (only ht hv).1.trans (only ht' hv').1.symm
    heard := fun {n' kind m path r'} hl => by
      rw [listeners] at hl
      split at hl
      · next hn =>
        rcases List.mem_append.1 hl with hl | hl
        · exact .inl hl
        · simp only [List.mem_singleton, Prod.mk.injEq, Listener.input.injEq] at hl
          obtain ⟨rfl, rfl, rfl, rfl⟩ := hl
          refine .inr ⟨rfl, s, w, Nat.le_of_eq (by rw [gains.name]), ?_, rfl, rfl, hn ▸ target⟩
          rw [Graph.watcher?_congr subscribers]
          exact gains.watcher?_new
      · exact .inl hl }

theorem leads_model (path : Path) (takes : p.graph.forest.takes (.value n)) :
    Leads m p (do
      let (r, g) := (← graph).createRecord .undefined
      setGraph g
      let v ← watch m path (.showValue n r)
      changeForest (·.setValue n v.text)
      setGraph ((← graph).setRecord r v)
      changeForest fun f => .ok (f.listen n "input" (.input m path r))) := by
  intro hm
  let r : RecordId := ⟨p.graph.records.size⟩
  let l : Listener := .input m path r
  let p₀ : Progress := { p with graph := { p.graph with records := p.graph.records.add .undefined } }
  obtain ⟨s, g, gains₀, records, hrun⟩ := run_watch m path (.showValue n r) p₀
  have gains := gains₀.of_records rfl
  have takes' : g.forest.takes (.value n) := by rwa [gains.keeps.takes]
  obtain ⟨f, hfill, hshow, hsize⟩ :=
    Forest.fill_of_takes takes' (p₀.graph.valueAt (p₀.graph.model m).data path).text
  have spares := gains.keeps.carries.spares.trans (Forest.spares_fill hfill)
  have size := hsize.trans gains.keeps.size
  have exist : n.index < f.size := size ▸ Forest.exists_of_takes takes
  rw [run_graph]
  dsimp only [Graph.createRecord]
  rw [run_bind, run_setGraph]
  dsimp only
  rw [run_bind, hrun]
  dsimp only
  rw [run_bind, run_changeForest hfill]
  dsimp only
  rw [run_graph, run_bind, run_setGraph]
  dsimp only
  rw [run_changeForest_ok]
  have content (n' : NodeId) : (f.listen n "input" l).content n' = f.content n' :=
    Forest.content_listen _ _ _ _ _
  refine compiled_binding gains ⟨hm, rfl⟩ rfl rfl ?_ ?_ ?_ ((Forest.size_modify _ _ _).trans size) ?_
  · dsimp only [Graph.setRecord]
    rw [Forest.shows, content]
    exact hshow
  · intro other hne
    dsimp only [Graph.setRecord]
    rw [Forest.shows, content]
    exact spares.shows_of_size size hne
  · intro other
    dsimp only [Graph.setRecord]
    rw [Forest.takes, content]
    exact spares.takes_of_size size
  · refine wires_binding gains rfl rfl ?_ ?_
    · dsimp only [Graph.setRecord]
      rw [records]
      rfl
    · intro n'
      dsimp only [Graph.setRecord]
      rw [Forest.listeners_listen, spares.listeners]
      simp only [exist, and_true]
      rfl

theorem leads_compileModel (directive expression : String) (takes : p.graph.forest.takes (.value n)) :
    Leads m p (compileModel m n directive expression) := by
  refine leads_bind (leads_resolve _ _) ?_
  intro path? p' _ compiled
  cases path? with
  | none => exact leads_pure _
  | some path =>
    rw [← compiled.takes] at takes
    exact leads_model path takes

theorem leads_compileOn (directive event method : String) :
    Leads m p (compileOn m n directive event method) := by
  apply leads_graph
  dsimp only
  split
  · next callback _ =>
    intro _
    rw [run_changeForest_ok]
    let l : Listener := .method m callback
    refine .of_forest rfl rfl (Forest.size_modify _ _ _) ?_ ?_ ?_ ?_
    · intro slot
      simp [Forest.takes]
    · intro slot
      right
      simp [Forest.shows]
    · intro n'
      rw [Forest.listeners_listen]
      split
      · exact List.prefix_append _ _
      · exact List.prefix_refl _
    · intro n' kind m' path r hl
      rw [Forest.listeners_listen] at hl
      split at hl
      · simpa using hl
      · exact hl
  · exact leads_refuse _ _ _

theorem takes_attr (takes : p.graph.forest.takes (.value n)) (name : String) :
    p.graph.forest.takes (.attr n name) := by
  rw [Forest.takes] at takes ⊢
  cases hc : p.graph.forest.content n <;> simp_all [Slot.node, Content.takes]

theorem leads_compileDirective (name value : String) (directive : Directive)
    (takes : p.graph.forest.takes (.value n)) : Leads m p (compileDirective m n name value directive) := by
  cases directive with
  | malformed => exact leads_report _
  | on event =>
    simp only [compileDirective]
    split
    · exact leads_report _
    · exact leads_compileOn _ _ _
  | bind a =>
    simp only [compileDirective]
    split
    · exact leads_report _
    · exact leads_compileBind _ _ _ (takes_attr takes a)
  | model =>
    simp only [compileDirective]
    split
    · exact leads_report _
    · exact leads_compileModel _ _ takes

theorem leads_strip (name : String) : Leads m p (changeForest fun f => .ok (f.removeAttribute n name)) := by
  intro _
  have spares := Forest.spares_removeAttribute p.graph.forest n name
  have size : (p.graph.forest.removeAttribute n name).size = p.graph.forest.size := by
    unfold Forest.removeAttribute
    split
    · exact Forest.size_modify _ _ _
    · rfl
  rw [run_changeForest_ok]
  refine .of_forest rfl rfl size (fun _ => spares.takes_of_size size) ?_ ?_ ?_
  · intro slot
    by_cases h : slot = .attr n name
    · left
      rw [h]
      exact ⟨Forest.shows_removeAttribute _ _ _, fun _ => nofun⟩
    · right
      exact spares.shows_of_size size h
  · intro n'
    simp only [spares.listeners, List.prefix_rfl]
  · intro n' kind m' path r hl
    rwa [spares.listeners] at hl

theorem run_tryFinally (x : Compilation α) (y : Compilation β) (p : Progress) :
    ((tryFinally x y).run.run p).2 = (y.run.run (x.run.run p).2).2 := by
  obtain ⟨⟨r, q⟩, hx⟩ : ∃ r, x.run.run p = r := ⟨_, rfl⟩
  obtain ⟨⟨r', q'⟩, hy⟩ : ∃ r, y.run.run q = r := ⟨_, rfl⟩
  rw [hx]
  dsimp only
  rw [hy]
  change x p = (r, q) at hx
  change y q = (r', q') at hy
  cases r <;> cases r' <;>
    simp only [tryFinally, tryFinally', StateT.run, ExceptT.run, ExceptT.mk, Functor.map, ExceptT.map, bind,
      StateT.bind, hx, hy] <;> rfl

theorem leads_tryFinally {x : Compilation α} {y : Compilation β} (hx : Leads m p x)
    (hy : ∀ {p'}, Compiled p p' → Leads m p' y) : Leads m p (tryFinally x y) := by
  intro hm
  have first := hx hm
  rw [run_tryFinally]
  exact first.trans (hy first (by rw [first.graph.grows.models]; exact hm))

theorem leads_compileAttributes (attributes : List (String × String))
    (takes : p.graph.forest.takes (.value n)) :
    Leads m p (compileAttributes m n attributes) := by
  induction attributes generalizing p with
  | nil => exact leads_pure _
  | cons pair rest ih =>
    obtain ⟨name, value⟩ := pair
    rw [compileAttributes]
    apply leads_graph
    dsimp only
    split
    · next directive _ =>
      refine leads_bind ?_ ?_
      · exact leads_tryFinally (leads_compileDirective name value directive takes) fun _ => leads_strip name
      · intro _ p' _ compiled
        apply ih
        rw [compiled.takes]
        exact takes
    · exact ih takes

theorem leads_compileNode (n : NodeId) : Leads m p (compileNode m n) := by
  apply leads_graph
  split
  · next hc =>
    apply leads_compileAttributes
    rw [Forest.takes, Slot.node, hc]
    rfl
  · next content hc =>
    have takes : p.graph.forest.takes (.text n) := by
      rw [Forest.takes, Slot.node, hc]
      rfl
    split
    · exact leads_compileText _ takes
    · exact leads_pure _
  · exact leads_pure _

theorem leads_forM {nodes : List NodeId} {x : NodeId → Compilation PUnit} (h : ∀ n {p}, Leads m p (x n)) :
    Leads m p (nodes.forM x) := by
  induction nodes generalizing p with
  | nil => exact leads_pure _
  | cons n nodes ih => exact leads_bind (h n) fun _ _ => ih

theorem leads_compileBelow (depth : Nat) (n : NodeId) : Leads m p (compileBelow m depth n) := by
  induction depth generalizing n p with
  | zero => exact leads_pure _
  | succ depth ih =>
    apply leads_graph
    apply leads_forM
    intro c p
    exact leads_bind (leads_compileNode c) fun _ _ => ih c

end Compilation

namespace Graph

variable {g : Graph} {id : CompilerId}

structure Initializes (id : CompilerId) (g g' : Graph) : Prop where
  extended : Extends g g'
  compilers : ∃ d : Compiler, g'.compilers = g.compilers.modify id.index (fun _ => d) ∧
    d.model = (g.compiler id).model ∧ d.dropped = (g.compiler id).dropped ∧
      (d.watchers = (g.compiler id).watchers ∧ g'.subscribers.size = g.subscribers.size ∨
        d.watchers =
          (List.range' g.subscribers.size (g'.subscribers.size - g.subscribers.size)).map SubscriberId.mk)

theorem initializes_of_compiled {f f' : Forest} {d : Compiler} (start : Extends g { g with forest := f })
    (compiled : Compiled { graph := { g with forest := f }, diagnostics := (g.compiler id).diagnostics } p)
    (kept : Forest.Keeps p.graph.forest f') (model : d.model = (g.compiler id).model)
    (dropped : d.dropped = (g.compiler id).dropped) (watchers : d.watchers = p.watchers) :
    Initializes id g (setCompiler { p.graph with forest := f' } id d) where
  extended := (start.trans compiled.graph).trans (.of_content kept.content kept.listeners)
  compilers := by
    refine ⟨d, ?_, model, dropped, .inr (watchers.trans compiled.watchers)⟩
    simp [setCompiler, compiled.compilers]

theorem initializes_init (hm : (g.compiler id).model.index < g.models.size) :
    Initializes id g (g.init id).2 := by
  unfold init
  dsimp only
  split
  · exact ⟨.of_content (fun _ => rfl) (fun _ => rfl), g.compiler id, (Table.modify_get _ _).symm, rfl, rfl,
      .inl ⟨rfl, rfl⟩⟩
  · split
    · exact ⟨.of_content (fun _ => rfl) (fun _ => rfl), _, rfl, rfl, rfl, .inl ⟨rfl, rfl⟩⟩
    · next root _ =>
      have created := Forest.carries_create g.forest .fragment
      have adopted := Forest.keeps_adoptAll (g.forest.create .fragment).2 (g.forest.create .fragment).1
        ((g.forest.create .fragment).2.children root)
      have content (n : NodeId) := (adopted.content n).trans (Forest.content_createFragment g.forest n)
      have listeners (n : NodeId) := (adopted.listeners n).trans (created.listeners n)
      generalize Forest.adoptAll _ _ _ = f at content listeners ⊢
      have start : Extends g { g with forest := f } := .of_content content listeners
      split
      next result p hrun =>
      have compiled := Compilation.leads_compileBelow f.size (g.forest.create .fragment).1
        (p := { graph := { g with forest := f }, diagnostics := (g.compiler id).diagnostics }) hm
      rw [hrun] at compiled
      split
      · exact initializes_of_compiled start compiled (.refl _) rfl rfl rfl
      · next f' happend =>
        have kept := (Forest.keeps_append happend).trans (Forest.keeps_retain f' root)
        exact initializes_of_compiled start compiled kept rfl rfl rfl

end Graph

end DataBinding
