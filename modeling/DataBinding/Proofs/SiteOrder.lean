import DataBinding.Proofs.SiteProgress

namespace DataBinding

namespace Forest

def sitesOf (f : Forest) (legacy : Bool) (n : NodeId) : List Site :=
  match f.content n with
  | .element _ attributes _ =>
    attributes.filterMap fun (name, value) => (Directive.ofName? legacy name).map (.directive n name value)
  | .text content => (firstExpression content).toList.map (.text n)
  | _ => []

def sites (f : Forest) (legacy : Bool) (root : NodeId) : List Site :=
  (f.descendants root).flatMap fun (_, n) => f.sitesOf legacy n

end Forest

namespace Graph

variable {g g' : Graph} {m : ModelId} {site : Site}

def handled (g : Graph) (m : ModelId) : List Site → List Site
  | [] => []
  | site :: rest => if (site.failure? g m).isSome then [site] else site :: g.handled m rest

theorem handled_prefix (g : Graph) (m : ModelId) (sites : List Site) : g.handled m sites <+: sites := by
  induction sites with
  | nil => exact List.prefix_rfl
  | cons site rest ih =>
    rw [handled]
    split
    · exact List.prefix_append [site] rest
    · exact (List.prefix_cons_inj site).2 ih

structure Agrees (g g' : Graph) : Prop where
  property : ∀ t k, g'.property? t k = g.property? t k
  models : g'.models = g.models

theorem Agrees.refl (g : Graph) : Agrees g g := ⟨fun _ _ => rfl, rfl⟩

theorem Grows.agrees (h : Grows g g') : Agrees g g' := ⟨h.property, h.models⟩

theorem Agrees.trans {g₁ g₂ g₃ : Graph} (h : Agrees g₁ g₂) (h' : Agrees g₂ g₃) : Agrees g₁ g₃ :=
  ⟨fun t k => (h'.property t k).trans (h.property t k), h'.models.trans h.models⟩

theorem hasPath_congr (property : ∀ t k, g'.property? t k = g.property? t k) (s : StoreId) (path : Path) :
    g'.hasPath s path = g.hasPath s path := by
  have hasKey (t : StoreId) (k : String) : g'.hasKey t k = g.hasKey t k := by
    have same := congrArg Option.isSome (property t k)
    rwa [property?, property?, Option.isSome_map, Option.isSome_map] at same
  rw [hasPath, walk?_congr property, hasPath]
  simp only [hasKey]

theorem fault?_congr (property : ∀ t k, g'.property? t k = g.property? t k)
    (data : (g'.model m).data = (g.model m).data) (methods : (g'.model m).methods = (g.model m).methods) :
    site.fault? g' m = site.fault? g m := by
  have read (source expression : String) : g'.fault? m source expression = g.fault? m source expression := by
    simp only [Graph.fault?, data, hasPath_congr property]
  cases site with
  | text n expression => exact read _ _
  | directive n name value d => cases d <;> simp only [Site.fault?, methods, read]

theorem callback?_congr (methods : (g'.model m).methods = (g.model m).methods) :
    site.callback? g' m = site.callback? g m := by
  cases site with
  | text n expression => rfl
  | directive n name value d => cases d <;> simp only [Site.callback?, methods]

namespace Agrees

variable (h : Agrees g g')
include h

theorem model (m : ModelId) : g'.model m = g.model m := by rw [Graph.model, h.models, Graph.model]

theorem valueAt (s : StoreId) (path : Path) : g'.valueAt s path = g.valueAt s path := valueAt_congr h.property s path

theorem fault? : site.fault? g' m = site.fault? g m := fault?_congr h.property (by rw [h.model]) (by rw [h.model])

theorem failure? : site.failure? g' m = site.failure? g m := by rw [Site.failure?, h.fault?, h.model, Site.failure?]

theorem diagnosis? : site.diagnosis? g' m = site.diagnosis? g m := by
  rw [Site.diagnosis?, h.failure?, h.fault?, Site.diagnosis?]

theorem path? : site.path? g' m = site.path? g m := by rw [Site.path?, h.failure?, Site.path?]

theorem callback? : site.callback? g' m = site.callback? g m := callback?_congr (by rw [h.model])

theorem records : site.records g' m = site.records g m := by
  unfold Site.records
  split
  · rw [h.path?]
  · rfl

theorem newWatcher (path : Path) : g'.newWatcher m path = g.newWatcher m path := by
  funext reaction
  rw [Graph.newWatcher, h.model, h.valueAt, Graph.newWatcher]

theorem watcher? (r : RecordId) : site.watcher? g' m r = site.watcher? g m r := by
  simp only [Site.watcher?, h.path?, h.newWatcher]

theorem listener? (r : RecordId) : site.listener? g' m r = site.listener? g m r := by
  unfold Site.listener?
  split
  · rw [h.callback?]
  · rw [h.path?]
  · rfl

theorem rewrite (c : Content) : site.rewrite g' m c = site.rewrite g m c := by
  simp only [Site.rewrite, Site.fill, h.path?, h.model, h.valueAt]

end Agrees

end Graph

namespace Progress

variable {m : ModelId} {p : Progress} {site : Site}

open Compilation in
theorem compiled_handle (hm : m.index < p.graph.models.size) (takes : p.graph.forest.takes site.slot) :
    Compiled p (p.handle m site) := by
  have leads : Leads m p (compileSite m site) := by
    cases site with
    | directive n name value d =>
      exact leads_tryFinally (leads_compileDirective name value d takes) fun _ => leads_strip name
    | text n expression => exact leads_compileText expression takes
  have compiled := leads hm
  rwa [run_compileSite takes] at compiled

theorem agrees_handle (known : m.index < p.graph.models.size) (takes : p.graph.forest.takes site.slot) :
    p.graph.Agrees (p.handle m site).graph := (compiled_handle known takes).graph.grows.agrees

end Progress

variable {m : ModelId} {p : Progress}

/-- The sites of a list are handled one after the other, each of which has its slot then. -/
inductive Handling (m : ModelId) : Progress → List Site → Progress → Prop
  | nil (p : Progress) : Handling m p [] p
  | cons {p p' : Progress} {site : Site} {rest : List Site} (known : m.index < p.graph.models.size)
    (takes : p.graph.forest.takes site.slot) (next : Handling m (p.handle m site) rest p') :
    Handling m p (site :: rest) p'

theorem handling_foldl {sites : List Site} (known : m.index < p.graph.models.size)
    (takes : ∀ site ∈ sites, p.graph.forest.takes site.slot) :
    Handling m p sites (sites.foldl (·.handle m ·) p) := by
  induction sites generalizing p with
  | nil => exact .nil p
  | cons site rest ih =>
    have here := takes site List.mem_cons_self
    have compiled := Progress.compiled_handle known here
    apply Handling.cons known here
    apply ih
    · rwa [compiled.graph.grows.models]
    · intro site' mem
      rw [compiled.takes]
      exact takes site' (List.mem_cons_of_mem _ mem)

namespace Handling

variable {p' : Progress} {sites : List Site} {g : Graph}

theorem compiled (h : Handling m p sites p') : Compiled p p' := by
  induction h with
  | nil p => exact .refl p
  | cons known takes _ ih => exact (Progress.compiled_handle known takes).trans ih

theorem agrees (h : Handling m p sites p') : p.graph.Agrees p'.graph := h.compiled.graph.grows.agrees

theorem content (h : Handling m p sites p') (agrees : g.Agrees p.graph) (n : NodeId) :
    p'.graph.forest.content n =
      (sites.filter (·.node = n)).foldl (fun c site => site.rewrite g m c) (p.graph.forest.content n) := by
  induction h with
  | nil p => rfl
  | @cons p p' site rest known takes next ih =>
    have agrees' := agrees.trans (Progress.agrees_handle known takes)
    rw [ih agrees', (Progress.makes_handle takes).content, List.filter_cons, agrees.rewrite]
    by_cases here : n = site.node
    · rw [if_pos here, if_pos (by simp [here]), List.foldl_cons]
    · rw [if_neg here, if_neg (by simpa using Ne.symm here)]

end Handling

namespace Compilation

open DataBinding.Graph (Agrees)

variable {n : NodeId} {g : Graph} {f : Forest} {legacy : Bool}

theorem run_sites {sites : List Site} (agrees : Agrees g p.graph) (hm : m.index < p.graph.models.size)
    (takes : ∀ site ∈ sites, p.graph.forest.takes site.slot) :
    (sites.forM (compileSite m)).run.run p =
      (outcome (sites.findSome? (·.failure? g m)), (g.handled m sites).foldl (·.handle m ·) p) := by
  induction sites generalizing p with
  | nil => rfl
  | cons site rest ih =>
    have here := takes site List.mem_cons_self
    have compiled := p.compiled_handle hm here
    rw [List.forM, run_bind, run_compileSite here, agrees.failure?, List.findSome?_cons, Graph.handled]
    cases failed : site.failure? g m with
    | some e => rfl
    | none =>
      have next := ih (p := p.handle m site) (agrees.trans (Progress.agrees_handle hm here))
        (by rwa [compiled.graph.grows.models]) fun site' h => by
          rw [compiled.takes]
          exact takes site' (List.mem_cons_of_mem _ h)
      exact next

theorem run_forM_append {α : Type} {as bs : List α} {x : α → Compilation PUnit} (p : Progress) :
    ((as ++ bs).forM x).run.run p = match (as.forM x).run.run p with
      | (.ok _, p') => (bs.forM x).run.run p'
      | (.error e, p') => (.error e, p') := by
  induction as generalizing p with
  | nil => rfl
  | cons a as ih =>
    rw [List.cons_append, List.forM, List.forM, run_bind, run_bind]
    cases (x a).run.run p with
    | mk r p' =>
      cases r with
      | error e => rfl
      | ok _ => exact ih p'

theorem run_forM_singleton {α : Type} (a : α) (x : α → Compilation PUnit) (p : Progress) :
    ([a].forM x).run.run p = (x a).run.run p := by
  rw [List.forM, run_bind]
  cases (x a).run.run p with
  | mk r p' => cases r <;> rfl

theorem run_compileAttributes {attributes : List (String × String)} (hm : m.index < p.graph.models.size)
    (mode : (p.graph.model m).options.legacyPrefixes = legacy) (takes : p.graph.forest.takes (.value n)) :
    (compileAttributes m n attributes).run.run p = ((attributes.filterMap fun (name, value) =>
      (Directive.ofName? legacy name).map (Site.directive n name value)).forM (compileSite m)).run.run p := by
  induction attributes generalizing p with
  | nil => rfl
  | cons pair rest ih =>
    obtain ⟨name, value⟩ := pair
    rw [compileAttributes, run_graph, mode]
    dsimp only
    cases asked : Directive.ofName? legacy name with
    | none =>
      rw [List.filterMap_cons_none (by rw [asked]; rfl)]
      exact ih hm mode takes
    | some d =>
      let site : Site := .directive n name value d
      have compiled : Compiled p (p.handle m site) := Progress.compiled_handle hm takes
      have models := compiled.graph.grows.models
      have ran : (compileSite m site).run.run p = _ := run_compileSite takes
      rw [List.filterMap_cons_some (by rw [asked]; rfl), List.forM, run_bind, run_bind, ran]
      rw [compileSite] at ran
      rw [ran]
      cases site.failure? p.graph m with
      | some e => rfl
      | none =>
        -- the node is an element still, and its other directives are read in the same way
        apply ih
        · rwa [models]
        · rw [Graph.model, models]
          exact mode
        · rwa [compiled.takes]

theorem run_compileNode (hm : m.index < p.graph.models.size)
    (mode : (p.graph.model m).options.legacyPrefixes = legacy) :
    (compileNode m n).run.run p = ((p.graph.forest.sitesOf legacy n).forM (compileSite m)).run.run p := by
  rw [compileNode, run_graph, Forest.sitesOf]
  cases hc : p.graph.forest.content n with
  | element tag attributes value =>
    exact run_compileAttributes hm mode (by rw [Forest.takes, Slot.node, hc]; rfl)
  | text content =>
    dsimp only
    cases firstExpression content with
    | none => rfl
    | some expression =>
      exact (run_forM_singleton (Site.text n expression) (compileSite m) p).symm
  | _ => rfl

theorem takes_of_mem_sitesOf {site : Site} (mem : site ∈ f.sitesOf legacy n) :
    f.takes site.slot ∧ site.node = n := by
  unfold Forest.sitesOf at mem
  split at mem
  · next hc =>
    obtain ⟨⟨name, value⟩, -, found⟩ := List.mem_filterMap.1 mem
    obtain ⟨d, -, rfl⟩ := Option.map_eq_some_iff.1 found
    exact ⟨by rw [Forest.takes, Site.slot, Slot.node, hc]; rfl, rfl⟩
  · next content hc =>
    obtain ⟨expression, -, rfl⟩ := List.mem_map.1 mem
    exact ⟨by rw [Forest.takes, Site.slot, Slot.node, hc]; rfl, rfl⟩
  · cases mem

theorem run_nodes {nodes : List NodeId} (hm : m.index < p.graph.models.size)
    (mode : (p.graph.model m).options.legacyPrefixes = legacy) (distinct : nodes.Nodup)
    (content : ∀ n ∈ nodes, p.graph.forest.content n = f.content n) :
    (nodes.forM (compileNode m)).run.run p = ((nodes.flatMap (f.sitesOf legacy)).forM (compileSite m)).run.run p := by
  induction nodes generalizing p with
  | nil => rfl
  | cons n rest ih =>
    obtain ⟨new, distinct⟩ := List.nodup_cons.1 distinct
    have same : p.graph.forest.sitesOf legacy n = f.sitesOf legacy n := by
      rw [Forest.sitesOf, content n List.mem_cons_self, Forest.sitesOf]
    have takes : ∀ site ∈ f.sitesOf legacy n, p.graph.forest.takes site.slot := by
      rw [← same]
      exact fun site mem => (takes_of_mem_sitesOf mem).1
    rw [List.flatMap_cons, run_forM_append, List.forM, run_bind, run_compileNode hm mode, same,
      run_sites (.refl _) hm takes]
    cases failed : (f.sitesOf legacy n).findSome? (·.failure? p.graph m) with
    | some e => rfl
    | none =>
      have handled := (p.graph.handled_prefix m (f.sitesOf legacy n)).subset
      have handling := handling_foldl hm fun site mem => takes site (handled mem)
      apply ih
      · rw [handling.agrees.models]
        exact hm
      · rw [handling.agrees.model]
        exact mode
      · exact distinct
      · intro n' mem
        -- only `n` has been written to, which does not come again
        have elsewhere : (p.graph.handled m (f.sitesOf legacy n)).filter (·.node = n') = [] := by
          apply List.filter_eq_nil_iff.2
          intro site mem'
          rw [decide_eq_true_eq, (takes_of_mem_sitesOf (handled mem')).2]
          rintro rfl
          exact new mem
        rw [handling.content (.refl _), elsewhere]
        exact content n' (List.mem_cons_of_mem _ mem)

theorem children_of_consists {x : Compilation Unit} (consists : Consists m (fun _ _ => True) p x)
    (children : ∀ n, p.graph.forest.children n = f.children n) (n : NodeId) :
    (x.run.run p).2.graph.forest.children n = f.children n :=
  ((consists fun _ _ _ => trivial).alike.children n).trans (children n)

/-- No piece changes links, so the walk meets the nodes that were below the start. -/
theorem run_below (depth : Nat) (children : ∀ n, p.graph.forest.children n = f.children n) (n : NodeId) :
    (compileBelow m depth n).run.run p = ((f.offspringWithin depth n).forM (compileNode m)).run.run p := by
  induction depth generalizing n p with
  | zero => rfl
  | succ depth ih =>
    rw [compileBelow, run_graph, children, Forest.offspringWithin]
    -- a second induction, on the children that are still to come
    generalize f.children n = cs
    induction cs generalizing p with
    | nil => rfl
    | cons c cs ihc =>
      have first := children_of_consists (consists_compileNode (m := m) closed_trivial c) children
      rw [List.flatMap_cons, List.cons_append, List.forM, List.forM, run_bind, run_bind, run_bind]
      generalize (compileNode m c).run.run p = made at first ⊢
      obtain ⟨r, p₁⟩ := made
      cases r with
      | error e => rfl
      | ok _ =>
        have below := children_of_consists (consists_compileBelow (m := m) closed_trivial depth c) first
        dsimp only at below ⊢
        rw [run_forM_append, ← ih first]
        generalize (compileBelow m depth c).run.run p₁ = made at below ⊢
        obtain ⟨r, p₂⟩ := made
        cases r with
        | error e => rfl
        | ok _ => exact ihc below

end Compilation

namespace Forest

variable {f : Forest} {root : NodeId}

theorem Linked.children_wrap (h : f.Linked) (exist : root.index < f.size) (n : NodeId) :
    (f.wrap root).children n =
      if n = ⟨f.size⟩ then f.children root else if n = root then [] else f.children n := by
  have apart : (⟨f.size⟩ : NodeId) ≠ root := by
    rintro rfl
    exact Nat.lt_irrefl _ exist
  have childless : f.children ⟨f.size⟩ = [] := children_of_size_le (Nat.le_refl _)
  have takes : ((f.create .fragment).2.content ⟨f.size⟩).takesChildren = true := by
    rw [content_created]
    rfl
  have moved := (h.create .fragment).children_moved (p := ⟨f.size⟩) (exists_fragment f) takes apart n
  rw [children_create, children_create, children_create, childless, List.nil_append] at moved
  rwa [Forest.wrap, children_create]

theorem Linked.offspring_wrap (h : f.Linked) (straight : f.Straight root) (exist : root.index < f.size) :
    (f.wrap root).offspringWithin (f.wrap root).size ⟨f.size⟩ = f.offspring root := by
  rw [← h.offspring_eq straight (Nat.le_succ _), size_wrap, offspringWithin, offspringWithin, h.children_wrap exist,
    if_pos rfl]
  apply List.flatMap_congr
  intro c hc
  have under := h.agree.1 hc
  rw [offspringWithin_congr ?_ h.agree.1]
  intro n low
  have old : n.index < f.size := by
    rcases low with rfl | below
    · exact under.exists
    · exact below.exists
  rw [h.children_wrap exist, if_neg, if_neg]
  · -- the root is not below its own child
    rintro rfl
    rcases low with rfl | below
    · exact straight n .refl (.single under)
    · exact straight n .refl (below.tail under)
  · rintro rfl
    exact Nat.lt_irrefl _ old

theorem flatMap_offspring (f : Forest) (legacy : Bool) (root : NodeId) :
    (f.offspring root).flatMap (f.sitesOf legacy) = f.sites legacy root := by
  rw [← map_descendants, List.flatMap_map]
  rfl

theorem takes_of_mem_sites {legacy : Bool} {site : Site} (mem : site ∈ f.sites legacy root) :
    f.takes site.slot := by
  obtain ⟨x, -, mem⟩ := List.mem_flatMap.1 mem
  exact (Compilation.takes_of_mem_sitesOf mem).1

end Forest

namespace Graph

variable {g : Graph} {id : CompilerId} {root : NodeId}

def start (g : Graph) (id : CompilerId) (root : NodeId) : Progress :=
  { graph := { g with forest := g.forest.wrap root }, diagnostics := (g.compiler id).diagnostics }

@[simp] theorem content_start (g : Graph) (id : CompilerId) (root n : NodeId) :
    (g.start id root).graph.forest.content n = g.forest.content n := Forest.content_wrap g.forest root n

@[simp] theorem listeners_start (g : Graph) (id : CompilerId) (root n : NodeId) :
    ((g.start id root).graph.forest.node n).listeners = (g.forest.node n).listeners :=
  ((Forest.keeps_adoptAll _ _ _).listeners n).trans ((Forest.carries_create g.forest .fragment).listeners n)

def sites (g : Graph) (id : CompilerId) (root : NodeId) : List Site :=
  g.forest.sites (g.model (g.compiler id).model).options.legacyPrefixes root

structure Ready (g : Graph) (id : CompilerId) (root : NodeId) : Prop where
  linked : g.forest.Linked
  straight : g.forest.Straight root
  made : id.index < g.compilers.size
  known : (g.compiler id).model.index < g.models.size
  pending : (g.compiler id).stage = .pending
  untold : (g.compiler id).diagnostics = []
  found : g.root? id = some root
  takes : (g.forest.content root).takesChildren = true

theorem Ready.exist (h : g.Ready id root) : root.index < g.forest.size := Forest.exists_of_query? h.found

theorem Ready.compiled_eq (h : g.Ready id root) :
    g.compiled id root =
      (Compilation.outcome ((g.sites id root).findSome? (·.failure? g (g.compiler id).model)),
        (g.handled (g.compiler id).model (g.sites id root)).foldl (·.handle (g.compiler id).model ·)
          (g.start id root)) := by
  have nodes : g.compiled id root =
      ((g.forest.offspring root).forM (Compilation.compileNode (g.compiler id).model)).run.run (g.start id root) := by
    rw [← h.linked.offspring_wrap h.straight h.exist]
    exact Compilation.run_below (p := g.start id root) _ (fun _ => rfl) ⟨g.forest.size⟩
  have flat := Compilation.run_nodes (p := g.start id root) (f := g.forest) h.known rfl
    (h.linked.nodup_offspringWithin h.straight g.forest.size) fun n _ => content_start g id root n
  rw [nodes, Forest.offspring, flat, ← Forest.offspring, Forest.flatMap_offspring]
  have takes : ∀ site ∈ g.sites id root, (g.start id root).graph.forest.takes site.slot := by
    intro site mem
    have old : g.forest.takes site.slot := Forest.takes_of_mem_sites mem
    rwa [Forest.takes, content_start, ← Forest.takes]
  exact Compilation.run_sites ⟨fun _ _ => rfl, rfl⟩ h.known takes

end Graph

end DataBinding
