import DataBinding.Proofs.CompilationSites
import DataBinding.Proofs.ParentChildLinks

namespace DataBinding

namespace Progress

variable {m : ModelId} {p : Progress} {n' : NodeId} {path : Path} {reaction : Reaction} {slot : Slot} {site : Site}

/-- What binding a site can be. Only a model directive has a reaction that depends on a record. -/
inductive Attaches (m : ModelId) (p : Progress) : Site → Progress → Prop
  | idle {site : Site} (path : site.path? p.graph m = none) (callback : site.callback? p.graph m = none) :
    Attaches m p site p
  | shown {site : Site} {path : Path} {reaction : Reaction} {slot : Slot} (bound : site.path? p.graph m = some path)
    (asked : site.slot? = some slot) (reacts : ∀ r, site.reaction? r = some reaction) :
    Attaches m p site (p.display m path reaction slot)
  | typed {n : NodeId} {name value : String} {path : Path}
    (bound : Site.path? p.graph m (.directive n name value .model) = some path) :
    Attaches m p (.directive n name value .model) (p.displayInput m n path)
  | heard {n : NodeId} {name value event : String} {callback : CallbackId}
    (called : Site.callback? p.graph m (.directive n name value (.on event)) = some callback) :
    Attaches m p (.directive n name value (.on event)) (p.alter (·.listen n event (.method m callback)))

@[simp] theorem path?_of_on (g : Graph) (m : ModelId) (n : NodeId) (name value event : String) :
    Site.path? g m (.directive n name value (.on event)) = none := ite_self _

@[simp] theorem path?_of_malformed (g : Graph) (m : ModelId) (n : NodeId) (name value : String) :
    Site.path? g m (.directive n name value .malformed) = none := ite_self _

theorem attaches_attach (p : Progress) (m : ModelId) (site : Site) : Attaches m p site (p.attach m site) := by
  cases site with
  | text n expression =>
    rw [attach]
    cases bound : Site.path? p.graph m (.text n expression) with
    | none => exact .idle bound rfl
    | some path => exact .shown bound rfl fun _ => rfl
  | directive n name value d =>
    cases d with
    | malformed => exact .idle (path?_of_malformed _ _ _ _ _) rfl
    | on event =>
      rw [attach]
      cases called : Site.callback? p.graph m (.directive n name value (.on event)) with
      | none => exact .idle (path?_of_on _ _ _ _ _ _) called
      | some callback => exact .heard called
    | bind a =>
      rw [attach]
      cases bound : Site.path? p.graph m (.directive n name value (.bind a)) with
      | none => exact .idle bound rfl
      | some path => exact .shown bound rfl fun _ => rfl
    | model =>
      rw [attach]
      cases bound : Site.path? p.graph m (.directive n name value .model) with
      | none => exact .idle bound rfl
      | some path => exact .typed bound

theorem takes_of_asked (asked : site.slot? = some slot) (takes : p.graph.forest.takes site.slot) :
    p.graph.forest.takes slot := by
  cases site with
  | text n expression => cases asked; exact takes
  | directive n name value d =>
    cases d with
    | bind a => cases asked; exact Compilation.takes_attr takes a
    | model => cases asked; exact takes
    | _ => cases asked

theorem node_of_asked (asked : site.slot? = some slot) : slot.node = site.node := by
  cases site with
  | text n expression => cases asked; rfl
  | directive n name value d => cases d <;> cases asked <;> rfl

theorem quiet_of_reacts (reacts : ∀ r, site.reaction? r = some reaction) :
    (∀ g m r, site.listener? g m r = none) ∧ ∀ g m, site.records g m = false := by
  cases site with
  | text n expression => exact ⟨fun _ _ _ => rfl, fun _ _ => rfl⟩
  | directive n name value d =>
    cases d with
    | model =>
      have same := (reacts ⟨0⟩).trans (reacts ⟨1⟩).symm
      simp [Site.reaction?] at same
    | bind a => exact ⟨fun _ _ _ => rfl, fun _ _ => rfl⟩
    | _ => cases reacts ⟨0⟩

@[simp] theorem content_display (path : Path) (reaction : Reaction) (takes : p.graph.forest.takes slot) (n : NodeId) :
    (p.display m path reaction slot).graph.forest.content n = if n = slot.node
      then (p.graph.forest.content n).put (p.graph.valueAt (p.graph.model m).data path).text slot
      else p.graph.forest.content n := by
  have keeps := (Graph.gains_createWatcher p.graph m path reaction).keeps
  have exist : slot.node.index < (p.graph.createWatcher m path reaction).2.forest.size := by
    rw [keeps.size]
    exact Forest.exists_of_takes takes
  rw [forest_display, Forest.content_setContent, keeps.content, keeps.content]
  by_cases here : n = slot.node
  · rw [if_pos ⟨here, exist⟩, if_pos here, here]
  · rw [if_neg fun h => here h.1, if_neg here]

@[simp] theorem listeners_display (path : Path) (reaction : Reaction) (slot : Slot) (n : NodeId) :
    ((p.display m path reaction slot).graph.forest.node n).listeners = (p.graph.forest.node n).listeners := by
  rw [forest_display, Forest.listeners_setContent]
  exact (Graph.gains_createWatcher p.graph m path reaction).keeps.listeners n

theorem listeners_listen_of_lt {f : Forest} (exist : n'.index < f.size) (event : String) (listener : Listener)
    (n : NodeId) :
    ((f.listen n' event listener).node n).listeners =
      (f.node n).listeners ++ if n = n' then [(event, listener)] else [] := by
  rw [Forest.listeners_listen]
  by_cases here : n = n' <;> simp [here, exist]

structure Makes (m : ModelId) (site : Site) (told : List Diagnostic) (edit : Content → Content) (p p' : Progress) :
    Prop where
  diagnostics : p'.diagnostics = p.diagnostics ++ told
  size : p'.graph.subscribers.size =
    p.graph.subscribers.size + (site.watcher? p.graph m ⟨p.graph.records.size⟩).toList.length
  watcher : ∀ {w}, site.watcher? p.graph m ⟨p.graph.records.size⟩ = some w →
    p'.graph.watcher? ⟨p.graph.subscribers.size⟩ = some w
  records : p'.graph.records.size = p.graph.records.size + (site.records p.graph m).toNat
  listeners : ∀ n, (p'.graph.forest.node n).listeners = (p.graph.forest.node n).listeners ++
    if n = site.node then (site.listener? p.graph m ⟨p.graph.records.size⟩).toList else []
  content : ∀ n, p'.graph.forest.content n =
    if n = site.node then edit (p.graph.forest.content n) else p.graph.forest.content n

theorem makes_idle (path : site.path? p.graph m = none) (callback : site.callback? p.graph m = none) :
    Makes m site [] (site.fill p.graph m) p p := by
  have watcher (r : RecordId) : site.watcher? p.graph m r = none := by rw [Site.watcher?, path]; rfl
  have records : site.records p.graph m = false := by
    unfold Site.records
    split
    · rw [path]; rfl
    · rfl
  have listener (r : RecordId) : site.listener? p.graph m r = none := by
    unfold Site.listener?
    split
    · rw [callback]; rfl
    · rw [path]; rfl
    · rfl
  constructor
  · exact (List.append_nil _).symm
  · rw [watcher]
    rfl
  · intro w made
    rw [watcher] at made
    cases made
  · rw [records]
    rfl
  · intro n
    rw [listener, Option.toList_none, ite_self, List.append_nil]
  · intro n
    rw [Site.fill, path, ite_self]

theorem makes_shown (bound : site.path? p.graph m = some path) (asked : site.slot? = some slot)
    (reacts : ∀ r, site.reaction? r = some reaction) (takes : p.graph.forest.takes site.slot) :
    Makes m site [] (site.fill p.graph m) p (p.display m path reaction slot) := by
  have gains := Graph.gains_createWatcher p.graph m path reaction
  have watcher (r : RecordId) : site.watcher? p.graph m r = some (p.graph.newWatcher m path reaction) := by
    rw [Site.watcher?, bound, Option.bind_some, reacts]
    rfl
  obtain ⟨listener, records⟩ := quiet_of_reacts reacts
  constructor
  · exact (List.append_nil _).symm
  · rw [watcher]
    exact gains.size
  · intro w made
    rw [watcher] at made
    cases made
    rw [← gains.name]
    exact gains.watcher?_new
  · rw [records]
    exact congrArg Table.size (Graph.records_createWatcher _ _ _ _)
  · intro n
    rw [listeners_display, listener, Option.toList_none, ite_self, List.append_nil]
  · intro n
    rw [content_display path reaction (takes_of_asked asked takes), node_of_asked asked, Site.fill, bound, asked]

theorem makes_typed {name value : String} (bound : Site.path? p.graph m (.directive n' name value .model) = some path)
    (takes : p.graph.forest.takes (.value n')) :
    Makes m (.directive n' name value .model) [] (Site.fill p.graph m (.directive n' name value .model)) p
      (p.displayInput m n' path) := by
  let site : Site := .directive n' name value .model
  let r : RecordId := ⟨p.graph.records.size⟩
  let q : Progress := { p with graph := (p.graph.createRecord .undefined).2 }
  have same (t : StoreId) (k : String) : q.graph.property? t k = p.graph.property? t k := rfl
  have gains := Graph.gains_createWatcher q.graph m path (.showValue n' r)
  have watcher : site.watcher? p.graph m r = some (q.graph.newWatcher m path (.showValue n' r)) := by
    rw [Site.watcher?, bound, Graph.newWatcher, Graph.valueAt_congr same]
    rfl
  constructor
  · exact (List.append_nil _).symm
  · rw [watcher]
    exact gains.size
  · intro w made
    rw [watcher] at made
    cases made
    exact gains.name ▸ gains.watcher?_new
  · have records : site.records p.graph m = true := by simp [site, Site.records, bound]
    have kept := congrArg Table.size (Graph.records_createWatcher q.graph m path (.showValue n' r))
    rw [records]
    exact (Table.size_modify _ _ _).trans (kept.trans (Table.size_add _ _))
  · intro n
    have listener : site.listener? p.graph m r = some ("input", .input m path r) := by
      simp [site, Site.listener?, bound]
    have exist : n'.index < (q.display m path (.showValue n' r) (.value n')).graph.forest.size := by
      rw [forest_display, Forest.setContent, Forest.size_modify, gains.keeps.size]
      exact Forest.exists_of_takes takes
    rw [listener]
    refine (listeners_listen_of_lt exist "input" (.input m path r) n).trans ?_
    rw [listeners_display]
    rfl
  · intro n
    have fill (c : Content) : site.fill p.graph m c =
        c.put (p.graph.valueAt (p.graph.model m).data path).text (.value n') := by
      simp [site, Site.fill, bound, Site.slot?]
    have shown := content_display (p := q) (m := m) path (.showValue n' r) takes n
    rw [Graph.valueAt_congr same] at shown
    rw [fill]
    exact (Forest.content_listen _ _ _ _ _).trans shown

theorem makes_heard {name value event : String} {callback : CallbackId}
    (called : Site.callback? p.graph m (.directive n' name value (.on event)) = some callback)
    (takes : p.graph.forest.takes (.value n')) :
    Makes m (.directive n' name value (.on event)) [] (Site.fill p.graph m (.directive n' name value (.on event))) p
      (p.alter (·.listen n' event (.method m callback))) := by
  let site : Site := .directive n' name value (.on event)
  have path : site.path? p.graph m = none := path?_of_on _ _ _ _ _ _
  have watcher (r : RecordId) : site.watcher? p.graph m r = none := by rw [Site.watcher?, path]; rfl
  constructor
  · exact (List.append_nil _).symm
  · rw [watcher]
    rfl
  · intro w made
    rw [watcher] at made
    cases made
  · rfl
  · intro n
    have listener (r : RecordId) : site.listener? p.graph m r = some (event, .method m callback) := by
      simp [site, Site.listener?, called]
    rw [listener]
    exact listeners_listen_of_lt (Forest.exists_of_takes takes) event (.method m callback) n
  · intro n
    rw [Site.fill, path, ite_self]
    exact Forest.content_listen _ _ _ _ _

theorem makes_attach (takes : p.graph.forest.takes site.slot) : 
    Makes m site [] (site.fill p.graph m) p (p.attach m site) := by
  have attaches := attaches_attach p m site
  generalize p.attach m site = p' at attaches ⊢
  cases attaches with
  | idle path callback => exact makes_idle path callback
  | shown bound asked reacts => exact makes_shown bound asked reacts takes
  | typed bound => exact makes_typed bound takes
  | heard called => exact makes_heard called takes

@[simp] theorem content_strip (p : Progress) (site : Site) (n : NodeId) :
    (p.strip site).graph.forest.content n =
      if n = site.node then Site.leave (p.graph.forest.content n) site else p.graph.forest.content n := by
  cases site with
  | text n' expression => exact (ite_self _).symm
  | directive n' name value d =>
    rw [strip, alter, Forest.removeAttribute_eq, Forest.content_setContent, Site.node]
    by_cases here : n = n'
    · subst here
      by_cases exist : n.index < p.graph.forest.size
      · rw [if_pos ⟨rfl, exist⟩, if_pos rfl]
        rfl
      · -- there is nothing to take from a node that does not exist
        rw [if_neg fun h => exist h.2, if_pos rfl, Forest.content, Forest.node_of_size_le (Nat.le_of_not_lt exist)]
        rfl
    · rw [if_neg fun h => here h.1, if_neg here]

@[simp] theorem listeners_strip (p : Progress) (site : Site) (n : NodeId) :
    ((p.strip site).graph.forest.node n).listeners = (p.graph.forest.node n).listeners := by
  cases site with
  | text n' expression => rfl
  | directive n' name value d => exact (Forest.spares_removeAttribute _ _ _).listeners n

theorem makes_handle (takes : p.graph.forest.takes site.slot) :
    Makes m site (site.diagnosis? p.graph m).toList (site.rewrite p.graph m) p (p.handle m site) := by
  have attached := makes_attach (p := p.note (site.diagnosis? p.graph m)) (m := m) takes
  rw [handle]
  generalize (p.note (site.diagnosis? p.graph m)).attach m site = q at attached ⊢
  have strip : (q.strip site).diagnostics = q.diagnostics ∧ (q.strip site).graph.subscribers = q.graph.subscribers ∧
      (q.strip site).graph.records = q.graph.records := by
    cases site <;> exact ⟨rfl, rfl, rfl⟩
  constructor
  · rw [strip.1, attached.diagnostics, List.append_nil]
    rfl
  · rw [strip.2.1]
    exact attached.size
  · intro w made
    rw [Graph.watcher?_congr strip.2.1]
    exact attached.watcher made
  · rw [strip.2.2]
    exact attached.records
  · intro n
    simpa using attached.listeners n
  · intro n
    rw [content_strip, attached.content]
    split <;> rfl

end Progress

end DataBinding
