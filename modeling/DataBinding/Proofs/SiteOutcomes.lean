import DataBinding.Proofs.SiteOrder

namespace DataBinding

namespace Graph

variable {g : Graph} {id : CompilerId} {root : NodeId}

/-- Sites with the record that each would be given; those that need none pass it on. -/
def numbered (g : Graph) (m : ModelId) : Nat → List Site → List (RecordId × Site)
  | _, [] => []
  | r, site :: rest => (⟨r⟩, site) :: g.numbered m (r + (site.records g m).toNat) rest

def watchersOf (g : Graph) (m : ModelId) (sites : List (RecordId × Site)) : List Watcher :=
  sites.filterMap fun (r, site) => site.watcher? g m r

def listenersOf (g : Graph) (m : ModelId) (n : NodeId) (sites : List (RecordId × Site)) : List (String × Listener) :=
  sites.filterMap fun (r, site) => if n = site.node then site.listener? g m r else none

@[simp] theorem watchersOf_cons (g : Graph) (m : ModelId) (r : RecordId) (site : Site) (rest : List (RecordId × Site)) :
    g.watchersOf m ((r, site) :: rest) = (site.watcher? g m r).toList ++ g.watchersOf m rest := by
  rw [watchersOf, List.filterMap_cons, watchersOf]
  dsimp only
  cases site.watcher? g m r <;> rfl

@[simp] theorem listenersOf_cons (g : Graph) (m : ModelId) (n : NodeId) (r : RecordId) (site : Site)
    (rest : List (RecordId × Site)) : g.listenersOf m n ((r, site) :: rest) =
      (if n = site.node then (site.listener? g m r).toList else []) ++ g.listenersOf m n rest := by
  rw [listenersOf, List.filterMap_cons, listenersOf]
  dsimp only
  by_cases here : n = site.node
  · rw [if_pos here, if_pos here]
    cases site.listener? g m r <;> rfl
  · rw [if_neg here, if_neg here]
    rfl

end Graph

namespace Handling

variable {m : ModelId} {p p' : Progress} {sites : List Site} {g : Graph}

theorem diagnostics (h : Handling m p sites p') (agrees : g.Agrees p.graph) :
    p'.diagnostics = p.diagnostics ++ sites.filterMap (·.diagnosis? g m) := by
  induction h with
  | nil p => exact (List.append_nil _).symm
  | @cons p p' site rest known takes next ih =>
    have agrees' := agrees.trans (Progress.agrees_handle known takes)
    rw [ih agrees', (Progress.makes_handle takes).diagnostics, agrees.diagnosis?, List.append_assoc,
      List.filterMap_cons]
    cases site.diagnosis? g m <;> rfl

theorem listeners (h : Handling m p sites p') (agrees : g.Agrees p.graph) (n : NodeId) :
    (p'.graph.forest.node n).listeners = (p.graph.forest.node n).listeners ++
      g.listenersOf m n (g.numbered m p.graph.records.size sites) := by
  induction h with
  | nil p => exact (List.append_nil _).symm
  | @cons p p' site rest known takes next ih =>
    have agrees' := agrees.trans (Progress.agrees_handle known takes)
    have makes := Progress.makes_handle (m := m) takes
    rw [ih agrees', makes.listeners, makes.records, agrees.listener?, agrees.records, List.append_assoc, Graph.numbered,
      Graph.listenersOf_cons]

theorem watched (h : Handling m p sites p') (agrees : g.Agrees p.graph) :
    (List.range' p.graph.subscribers.size (p'.graph.subscribers.size - p.graph.subscribers.size)).map
      (fun i => p'.graph.watcher? ⟨i⟩) = (g.watchersOf m (g.numbered m p.graph.records.size sites)).map some := by
  induction h with
  | nil p => simp [Graph.numbered, Graph.watchersOf]
  | @cons p p' site rest known takes next ih =>
    have compiled := Progress.compiled_handle known takes
    have grows := next.compiled.graph.grows
    have makes := Progress.makes_handle (m := m) takes
    have size := makes.size
    have later := ih (agrees.trans (Progress.agrees_handle known takes))
    rw [agrees.watcher?] at size
    rw [makes.records, agrees.records] at later
    rw [Graph.numbered, Graph.watchersOf_cons, List.map_append, ← later]
    cases made : site.watcher? g m ⟨p.graph.records.size⟩ with
    | none =>
      rw [made] at size
      rw [size]
      rfl
    | some w =>
      -- the watcher of this site is the first of those that are new
      rw [made, Option.toList_some, List.length_singleton] at size
      have here : p'.graph.watcher? ⟨p.graph.subscribers.size⟩ = some w := by
        rw [grows.watcher? (by rw [size]; exact Nat.lt_succ_self _)]
        exact makes.watcher ((agrees.watcher? _).trans made)
      have more := grows.size
      have count : p'.graph.subscribers.size - p.graph.subscribers.size =
          p'.graph.subscribers.size - (p.handle m site).graph.subscribers.size + 1 := by omega
      rw [count, List.range'_succ, List.map_cons, here, size]
      rfl

end Handling

namespace Graph

variable {g : Graph} {id : CompilerId} {root : NodeId}

def processed (g : Graph) (id : CompilerId) (root : NodeId) : List Site :=
  g.handled (g.compiler id).model (g.sites id root)

def restored (g : Graph) (id : CompilerId) (root : NodeId) : Forest :=
  let f := (g.compiled id root).2.graph.forest
  (f.adoptAll root (f.children ⟨g.forest.size⟩)).retain root

theorem keeps_restored (g : Graph) (id : CompilerId) (root : NodeId) :
    Forest.Keeps (g.compiled id root).2.graph.forest (g.restored id root) :=
  (Forest.keeps_adoptAll _ _ _).trans (Forest.keeps_retain _ _)

theorem init_of_open (pending : (g.compiler id).stage = .pending)
    (found : g.root? id = some root)
    (takes : (g.forest.content root).takesChildren = true) :
    g.init id = ((g.compiled id root).1,
      setCompiler { (g.compiled id root).2.graph with forest := g.restored id root } id { g.compiler id with
        root := some root
        watchers := (g.compiled id root).2.watchers
        diagnostics := (g.compiled id root).2.diagnostics
        stage := .compiled }) := by
  have same := alike_compiled g id root
  have open' : ((g.compiled id root).2.graph.forest.content root).takesChildren = true := by
    rwa [same.takesChildren, Forest.content_wrap]
  have fragment : (g.compiled id root).2.graph.forest.content ⟨g.forest.size⟩ = .fragment := by
    have absent := Forest.node_of_size_le (n := ⟨g.forest.size⟩) (Nat.le_refl g.forest.size)
    rw [Forest.eq_fragment_iff, same.kind, Forest.content_wrap, Forest.content, absent]
    rfl
  rw [init_of_found pending found, Forest.append, fragment, open']
  rfl

theorem agrees_start (g : Graph) (id : CompilerId) (root : NodeId) : g.Agrees (g.start id root).graph :=
  ⟨fun _ _ => rfl, rfl⟩

theorem compiled_compiled (known : (g.compiler id).model.index < g.models.size) (root : NodeId) :
    Compiled (g.start id root) (g.compiled id root).2 := Compilation.leads_compileBelow _ _ known

namespace Ready

variable (h : g.Ready id root)
include h

theorem init_spec :
    (g.init id).1 = (g.compiled id root).1 ∧ (g.init id).2.forest = g.restored id root ∧
      (g.init id).2.subscribers = (g.compiled id root).2.graph.subscribers ∧
      ((g.init id).2.compiler id).watchers = (g.compiled id root).2.watchers ∧
      ((g.init id).2.compiler id).diagnostics = (g.compiled id root).2.diagnostics := by
  have made : id.index < (g.compiled id root).2.graph.compilers.size := by
    rw [(compiled_compiled h.known root).compilers]
    exact h.made
  rw [init_of_open h.pending h.found h.takes]
  simp [made]

theorem handling : Handling (g.compiler id).model (g.start id root) (g.processed id root) (g.compiled id root).2 := by
  rw [h.compiled_eq]
  apply handling_foldl h.known
  intro site mem
  have old : g.forest.takes site.slot :=
    Forest.takes_of_mem_sites ((g.handled_prefix (g.compiler id).model (g.sites id root)).subset mem)
  rwa [Forest.takes, content_start, ← Forest.takes]

theorem content_init (n : NodeId) : (g.init id).2.forest.content n =
    ((g.processed id root).filter (·.node = n)).foldl
      (fun content site => site.rewrite g (g.compiler id).model content) (g.forest.content n) := by
  rw [h.init_spec.2.1, (keeps_restored g id root).content, h.handling.content (agrees_start g id root), content_start]

theorem listeners_init (n : NodeId) : ((g.init id).2.forest.node n).listeners = (g.forest.node n).listeners ++
    g.listenersOf (g.compiler id).model n
      (g.numbered (g.compiler id).model g.records.size (g.processed id root)) := by
  rw [h.init_spec.2.1, (keeps_restored g id root).listeners, h.handling.listeners (agrees_start g id root),
    listeners_start]
  rfl

end Ready

theorem compiled_of_childless (linked : g.forest.Linked) (exist : root.index < g.forest.size)
    (childless : g.forest.children root = []) : g.compiled id root = (.ok (), g.start id root) := by
  have nothing : (g.forest.wrap root).offspringWithin (g.forest.wrap root).size ⟨g.forest.size⟩ = [] := by
    rw [Forest.size_wrap, Forest.offspringWithin, linked.children_wrap exist, if_pos rfl, childless]
    rfl
  have ran := Compilation.run_below (p := g.start id root) (m := (g.compiler id).model) (f := g.forest.wrap root)
    (g.forest.wrap root).size (fun _ => rfl) ⟨g.forest.size⟩
  rw [nothing] at ran
  exact ran

def Untold (g : Graph) : Prop := ∀ c, (g.compiler c).stage = .pending → (g.compiler c).diagnostics = []

theorem Untold.of_compilers {g' : Graph} {d : Compiler} (h : g.Untold)
    (compilers : g'.compilers = g.compilers.modify id.index fun _ => d)
    (told : d.stage = .pending → d.diagnostics = []) : g'.Untold := by
  intro c
  rw [compiler_of_modify compilers]
  split
  · exact told
  · exact h c

theorem untold_init (h : g.Untold) (linked : g.forest.Linked)
    (known : (g.compiler id).model.index < g.models.size) : (g.init id).2.Untold := by
  by_cases pending : (g.compiler id).stage = .pending
  · cases found : g.root? id with
    | none =>
      rw [init_of_not_found pending found]
      exact h.of_compilers rfl nofun
    | some root =>
      by_cases takes : (g.forest.content root).takesChildren = true
      · have compilers := (compiled_compiled known root).compilers
        rw [init_of_open pending found takes]
        refine h.of_compilers (congrArg (Table.modify · id.index fun _ => _) compilers) ?_
        exact nofun
      · -- without children nothing is compiled, and nothing told, before the children are to go back
        have childless := linked.solid (by simpa using takes)
        have closed : ((g.start id root).graph.forest.content root).takesChildren = false := by
          rw [content_start]
          simpa using takes
        rw [init_of_found pending found, compiled_of_childless linked (Forest.exists_of_query? found) childless,
          Forest.append, closed]
        exact h.of_compilers rfl fun _ => h id pending
  · rw [init_of_not_pending pending]
    exact h

end Graph

namespace Run

variable {h : History} {e : Engine} {c : CompilerId} {root : NodeId}

theorem untold (run : Run h e) (founded : h.Founded) : e.graph.Untold := by
  induction run with
  | start =>
    intro c _
    exact congrArg Compiler.diagnostics (Table.get_of_size_le _ (Nat.zero_le c.index))
  | @move h e m run allowed ih =>
    have untold := ih fun x hx => founded x (List.mem_cons_of_mem _ hx)
    have has := allowed.2
    rcases Engine.compilers_perform allowed with same | ⟨document, selector, m, rfl⟩ | ⟨c, rfl | rfl⟩
    · intro c
      rw [Graph.compiler, same]
      exact untold c
    · intro c
      rw [Engine.perform, Graph.compiler_createCompiler]
      split
      · exact fun _ => rfl
      · exact untold c
    · have linked := (run.linked fun x hx => founded x (List.mem_cons_of_mem _ hx)).1
      exact Graph.untold_init untold linked (run.wellFormed.compilers has.1)
    · exact untold.of_compilers (Engine.compilers_dropCompiler e.graph c) (untold c)

theorem ready (run : Run h e) (founded : h.Founded) (allowed : e.Allows (.init c))
    (pending : (e.graph.compiler c).stage = .pending)
    (document : e.graph.forest.content (e.graph.compiler c).document = .document)
    (found : e.graph.root? c = some root) (takes : (e.graph.forest.content root).takesChildren = true) :
    e.graph.Ready c root where
  linked := (run.linked founded).1
  straight := (run.linked founded).1.straight_of_query? document found
  made := allowed.2.1
  known := run.wellFormed.compilers allowed.2.1
  pending
  untold := run.untold founded c pending
  found
  takes

/-- The compilation below a root that takes children handles the sites that stood there before, once and in order, up
to the first that fails. One that fails is only taken away. For the others the watchers of the compiler are those of the
sites that are bound to a path, its diagnostics are those of the sites at fault, every node has the listeners of its
sites after those that it had, and the content of a node is what its sites, each with its directive taken away at its
end, have made of it. -/
theorem sites_handled (run : Run h e) (founded : h.Founded) (allowed : e.Allows (.init c))
    (pending : (e.graph.compiler c).stage = .pending)
    (document : e.graph.forest.content (e.graph.compiler c).document = .document)
    (found : e.graph.root? c = some root) (takes : (e.graph.forest.content root).takesChildren = true) :
    let g := e.graph
    let m := (g.compiler c).model
    let sites := g.numbered m g.records.size (g.processed c root)
    let g' := (e.perform (.init c)).graph
    (g.init c).1 = Compilation.outcome ((g.sites c root).findSome? (·.failure? g m)) ∧
      (g'.compiler c).watchers.map g'.watcher? = (g.watchersOf m sites).map some ∧
      (g'.compiler c).diagnostics = (g.processed c root).filterMap (·.diagnosis? g m) ∧
      (∀ n, (g'.forest.node n).listeners = (g.forest.node n).listeners ++ g.listenersOf m n sites) ∧
      ∀ n, g'.forest.content n =
        ((g.processed c root).filter (·.node = n)).foldl (fun content site => site.rewrite g m content)
          (g.forest.content n) := by
  have ready := run.ready founded allowed pending document found takes
  intro g m sites g'
  obtain ⟨result, -, subscribers, watchers, diagnostics⟩ := ready.init_spec
  refine ⟨?_, ?_, ?_, ready.listeners_init, ready.content_init⟩
  · rw [result, ready.compiled_eq]
  · have watcher? (s : SubscriberId) : g'.watcher? s = (g.compiled c root).2.graph.watcher? s :=
      Graph.watcher?_congr subscribers s
    have made : (g'.compiler c).watchers = (g.compiled c root).2.watchers := watchers
    have watched := ready.handling.watched (Graph.agrees_start g c root)
    rw [made, (Graph.compiled_compiled ready.known root).watchers, List.map_append, List.map_map]
    simp only [Function.comp_def, watcher?]
    exact watched
  · have told : (g'.compiler c).diagnostics = (g.compiled c root).2.diagnostics := diagnostics
    have before : (g.start c root).diagnostics = [] := ready.untold
    rw [told, ready.handling.diagnostics (Graph.agrees_start g c root), before, List.nil_append]

def manifold : Scene where
  before :=
    [.createStore [("a", .string "x")], .createModel { data := ⟨0⟩, methods := [("go", ⟨0⟩)], options := {} }]
  markup := "<div><p :title='a' @click='go' model='b'>\x7b\x7b a \x7d\x7d<br :='a'></p></div>"
  later := [.createCompiler ⟨0⟩ "div" ⟨0⟩]

def laid : Engine := manifold.ended

theorem plays_manifold : manifold.plays = true := by decide +kernel

theorem run_laid : Run manifold.history laid := Scene.run plays_manifold

theorem founded_laid : manifold.history.Founded := (Scene.proper plays_manifold).1

theorem allows_laid : laid.Allows (.init ⟨0⟩) := by decide +kernel

def worked : Engine := laid.perform (.init ⟨0⟩)

theorem worked_sites_handled :
    (laid.graph.init ⟨0⟩).1 = .ok () ∧
      (worked.graph.compiler ⟨0⟩).watchers.map worked.graph.watcher? =
        (laid.graph.watchersOf ⟨0⟩ (laid.graph.numbered ⟨0⟩ 0 (laid.graph.processed ⟨0⟩ ⟨1⟩))).map some ∧
      (worked.graph.compiler ⟨0⟩).diagnostics = [.missingPath "model" ⟨[], "b"⟩, .missingArgument ":"] ∧
      (worked.graph.forest.node ⟨2⟩).listeners.map Prod.fst = ["click", "input"] ∧
      (worked.graph.forest.content ⟨2⟩).attributes = [("title", "x")] := by
  have found : laid.graph.root? ⟨0⟩ = some ⟨1⟩ := by decide +kernel
  obtain ⟨result, watchers, diagnostics, listeners, content⟩ :=
    sites_handled run_laid founded_laid allows_laid (by decide +kernel)
      ((Forest.eq_document_iff _).2 (by decide +kernel)) found (by decide +kernel)
  have done : ((laid.graph.sites ⟨0⟩ ⟨1⟩).findSome? (·.failure? laid.graph ⟨0⟩)).isNone = true := by decide +kernel
  refine ⟨?_, watchers, ?_, ?_, ?_⟩
  · exact result.trans (congrArg Compilation.outcome (Option.isNone_iff_eq_none.1 done))
  · exact diagnostics.trans (by decide +kernel)
  · exact (congrArg (List.map Prod.fst) (listeners ⟨2⟩)).trans (by decide +kernel)
  · exact (congrArg Content.attributes (content ⟨2⟩)).trans (by decide +kernel)

def lacking : Scene where
  before := preparing
  markup := "<div><p :title='later'></p></div>"
  later := [.createCompiler ⟨0⟩ "div" ⟨0⟩]

def unrefused : Engine := lacking.ended

def refused : Engine := unrefused.perform (.init ⟨0⟩)

/-- Compilation comes to a site that has a path and is at fault, and neither a watcher nor a diagnostic follows. -/
theorem refused_untold :
    Run lacking.history unrefused ∧ lacking.history.Founded ∧ unrefused.Allows (.init ⟨0⟩) ∧
      (unrefused.graph.compiler ⟨0⟩).stage = .pending ∧ unrefused.graph.root? ⟨0⟩ = some ⟨1⟩ ∧
      (unrefused.graph.forest.content ⟨1⟩).takesChildren = true ∧
      unrefused.graph.processed ⟨0⟩ ⟨1⟩ = [.directive ⟨2⟩ ":title" "later" (.bind "title")] ∧
      (trimmed "later").isEmpty = false ∧ Path.read? "later" = some ⟨[], "later"⟩ ∧
      Site.fault? unrefused.graph ⟨0⟩ (.directive ⟨2⟩ ":title" "later" (.bind "title")) =
        some (.missingPath ":title" ⟨[], "later"⟩) ∧
      (refused.graph.compiler ⟨0⟩).watchers = [] ∧ (refused.graph.compiler ⟨0⟩).diagnostics = [] := by
  have plays : lacking.plays = true := by decide +kernel
  exact ⟨Scene.run plays, (Scene.proper plays).1, by decide +kernel⟩

end Run

end DataBinding
