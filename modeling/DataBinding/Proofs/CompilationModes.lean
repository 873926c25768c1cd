import DataBinding.Proofs.SiteOutcomes

namespace DataBinding

variable {m : ModelId} {strict : Bool} {g : Graph} {p p' : Progress} {site : Site} {sites : List Site} {root : NodeId}
  {id : CompilerId}

def ViewModel.inMode (model : ViewModel) (strict : Bool) : ViewModel :=
  { model with options := { model.options with strictDirectives := strict } }

def Graph.inMode (g : Graph) (m : ModelId) (strict : Bool) : Graph :=
  { g with models := g.models.modify m.index (·.inMode strict) }

def Progress.inMode (p : Progress) (m : ModelId) (strict : Bool) : Progress :=
  { p with graph := p.graph.inMode m strict }

namespace Graph

theorem inMode_self (h : (g.model m).options.strictDirectives = strict) : g.inMode m strict = g := by
  have fixed : (g.models.get m.index).inMode strict = g.models.get m.index := by
    subst h
    rfl
  rw [inMode, Table.modify_of_fixed fixed]

@[simp]
theorem model_inMode (known : m.index < g.models.size) : (g.inMode m strict).model m = (g.model m).inMode strict := by
  simp [model, inMode, known]

@[simp] theorem inMode_inMode (g : Graph) (m : ModelId) (a b : Bool) : (g.inMode m a).inMode m b = g.inMode m b := by
  have twice := Table.modify_modify g.models m.index (·.inMode a) (·.inMode b)
  exact congrArg (fun models => { g with models }) twice

theorem Agrees.inMode {g' : Graph} (h : g.Agrees g') : (g.inMode m strict).Agrees (g'.inMode m strict) :=
  ⟨h.property, congrArg (fun t : Table ViewModel => t.modify m.index (·.inMode strict)) h.models⟩

@[simp] theorem track_inMode (g : Graph) (reader : Option SubscriberId) (s : StoreId) (key : String) :
    (g.inMode m strict).track reader s key = (g.track reader s key).inMode m strict := by
  cases reader with
  | none => rfl
  | some r =>
    have same : (g.inMode m strict).property? s key = g.property? s key := rfl
    unfold track
    rw [same]
    cases g.property? s key with
    | none => rfl
    | some v =>
      dsimp only [register]
      change (if g.lists (.property s key) (g.identity r) then _ else _) = _
      split <;> rfl

@[simp]
theorem readAlong_inMode (reader : Option SubscriberId) (last : String) (keys : List String) (s : StoreId) (g : Graph) :
    (g.inMode m strict).readAlong reader s last keys =
      ((g.readAlong reader s last keys).1, (g.readAlong reader s last keys).2.inMode m strict) := by
  induction keys generalizing s g with
  | nil => exact Prod.ext rfl (track_inMode g reader s last)
  | cons key keys ih =>
    have here : (g.inMode m strict).read reader s key = (g.peek s key, (g.track reader s key).inMode m strict) :=
      Prod.ext rfl (track_inMode g reader s key)
    rw [readAlong, readAlong, here, read]
    cases g.peek s key with
    | object next => exact ih next _
    | _ => rfl

@[simp] theorem valueAt_inMode (g : Graph) (s : StoreId) (path : Path) :
    (g.inMode m strict).valueAt s path = g.valueAt s path := by
  rw [valueAt, readPath, readAlong_inMode]
  rfl

theorem createWatcher_inMode (known : m.index < g.models.size) (path : Path) (reaction : Reaction) :
    (g.inMode m strict).createWatcher m path reaction =
      ((g.createWatcher m path reaction).1, (g.createWatcher m path reaction).2.inMode m strict) := by
  let w := g.blankWatcher m path reaction
  have blank : (g.inMode m strict).blankWatcher m path reaction = w := by
    rw [blankWatcher, model_inMode known]
    rfl
  have evaluated : ((g.inMode m strict).welcome w).evaluate ⟨g.subscribers.size⟩ w =
      (((g.welcome w).evaluate ⟨g.subscribers.size⟩ w).1,
        ((g.welcome w).evaluate ⟨g.subscribers.size⟩ w).2.inMode m strict) := by
    have data : ((g.welcome w).inMode m strict).model m = (g.model m).inMode strict := model_inMode known
    change ((g.welcome w).inMode m strict).evaluate _ w = _
    rw [evaluate, readPath]
    change readAlong _ _ (((g.welcome w).inMode m strict).model m).data _ _ = _
    rw [data, readAlong_inMode]
    rfl
  rw [createWatcher_eq, createWatcher_eq, blank]
  change (_, ((((g.inMode m strict).welcome w).evaluate ⟨g.subscribers.size⟩ w).2.setWatched _ w
    (((g.inMode m strict).welcome w).evaluate ⟨g.subscribers.size⟩ w).1)) = _
  rw [evaluated]
  rfl

theorem fault?_inMode (known : m.index < g.models.size) : site.fault? (g.inMode m strict) m = site.fault? g m :=
  fault?_congr (fun _ _ => rfl) (by rw [model_inMode known]; rfl) (by rw [model_inMode known]; rfl)

theorem failure?_inMode (known : m.index < g.models.size) :
    site.failure? (g.inMode m strict) m = refusal? strict (site.fault? g m) := by
  rw [Site.failure?, model_inMode known, fault?_inMode known]
  rfl

end Graph

namespace Progress

@[simp] theorem inMode_inMode (p : Progress) (m : ModelId) (a b : Bool) : (p.inMode m a).inMode m b = p.inMode m b :=
  congrArg (fun graph => { p with graph }) (Graph.inMode_inMode p.graph m a b)

theorem display_inMode (known : m.index < p.graph.models.size) (path : Path) (reaction : Reaction) (slot : Slot) :
    (p.inMode m strict).display m path reaction slot = (p.display m path reaction slot).inMode m strict := by
  unfold display inMode
  dsimp only
  rw [Graph.createWatcher_inMode known, Graph.model_inMode known, Graph.valueAt_inMode]
  rfl

theorem displayInput_inMode (known : m.index < p.graph.models.size) (n : NodeId) (path : Path) :
    (p.inMode m strict).displayInput m n path = (p.displayInput m n path).inMode m strict := by
  let q : Progress := { p with graph := (p.graph.createRecord .undefined).2 }
  have shown : (q.inMode m strict).display m path (.showValue n ⟨p.graph.records.size⟩) (.value n) = _ :=
    display_inMode (p := q) known path (.showValue n ⟨p.graph.records.size⟩) (.value n)
  have value : (q.graph.inMode m strict).valueAt ((q.graph.inMode m strict).model m).data path =
      q.graph.valueAt (q.graph.model m).data path := by
    rw [Graph.valueAt_inMode, Graph.model_inMode (g := q.graph) known]
    rfl
  unfold displayInput
  change alter { (q.inMode m strict).display m path (.showValue n ⟨p.graph.records.size⟩) (.value n) with
    graph := ((q.inMode m strict).display m path (.showValue n ⟨p.graph.records.size⟩) (.value n)).graph.setRecord
      ⟨p.graph.records.size⟩ ((q.graph.inMode m strict).valueAt ((q.graph.inMode m strict).model m).data path) } _ = _
  rw [shown, value]
  rfl

theorem attach_inMode (known : m.index < p.graph.models.size)
    (same : site.failure? (p.graph.inMode m strict) m = site.failure? p.graph m) :
    (p.inMode m strict).attach m site = (p.attach m site).inMode m strict := by
  have path : site.path? (p.inMode m strict).graph m = site.path? p.graph m := by
    rw [Site.path?, inMode, same, Site.path?]
  have shown (reaction : Reaction) (slot : Slot) :
      ((site.path? (p.inMode m strict).graph m).elim (p.inMode m strict) fun path =>
        (p.inMode m strict).display m path reaction slot) =
      ((site.path? p.graph m).elim p fun path => p.display m path reaction slot).inMode m strict := by
    rw [path]
    cases site.path? p.graph m with
    | none => rfl
    | some path => exact display_inMode known path reaction slot
  cases site with
  | text n expression => exact shown _ _
  | directive n name value d =>
    cases d with
    | malformed => rfl
    | on event =>
      have callback : Site.callback? (p.inMode m strict).graph m (.directive n name value (.on event)) =
          Site.callback? p.graph m (.directive n name value (.on event)) :=
        Graph.callback?_congr (by rw [inMode, Graph.model_inMode known]; rfl)
      rw [attach, attach, callback]
      cases Site.callback? p.graph m (.directive n name value (.on event)) <;> rfl
    | bind a => exact shown _ _
    | model =>
      rw [attach, attach, path]
      cases Site.path? p.graph m (.directive n name value .model) with
      | none => rfl
      | some path => exact displayInput_inMode known n path

theorem handle_inMode (known : m.index < p.graph.models.size)
    (same : site.failure? (p.graph.inMode m strict) m = site.failure? p.graph m) :
    (p.inMode m strict).handle m site = (p.handle m site).inMode m strict := by
  have diagnosis : site.diagnosis? (p.inMode m strict).graph m = site.diagnosis? p.graph m := by
    rw [Site.diagnosis?, inMode, same, Graph.fault?_inMode known, Site.diagnosis?]
  have attached := attach_inMode (p := p.note (site.diagnosis? p.graph m)) known same
  rw [handle, diagnosis]
  change ((Progress.inMode (p.note (site.diagnosis? p.graph m)) m strict).attach m site).strip site = _
  rw [attached]
  cases site <;> rfl

end Progress

theorem Handling.inMode (h : Handling m p sites p') (agrees : g.Agrees p.graph)
    (same : ∀ site ∈ sites, site.failure? (g.inMode m strict) m = site.failure? g m) :
    sites.foldl (·.handle m ·) (p.inMode m strict) = p'.inMode m strict := by
  induction h with
  | nil p => rfl
  | @cons p p' site rest known takes next ih =>
    have agrees' := agrees.trans (Progress.agrees_handle known takes)
    have here : site.failure? (p.graph.inMode m strict) m = site.failure? p.graph m := by
      rw [agrees.inMode.failure?, agrees.failure?]
      exact same site List.mem_cons_self
    rw [List.foldl_cons, Progress.handle_inMode known here]
    exact ih agrees' fun site mem => same site (List.mem_cons_of_mem _ mem)

namespace Graph

theorem sites_inMode (known : (g.compiler id).model.index < g.models.size) (strict : Bool) :
    (g.inMode (g.compiler id).model strict).sites id root = g.sites id root := by
  let m := (g.compiler id).model
  change g.forest.sites ((g.inMode m strict).model m).options.legacyPrefixes root = _
  rw [model_inMode known]
  rfl

theorem handled_of_faultless (none : ∀ site ∈ sites, site.failure? g m = none) : g.handled m sites = sites := by
  induction sites with
  | nil => rfl
  | cons site rest ih =>
    rw [handled, none site List.mem_cons_self, ih fun site mem => none site (List.mem_cons_of_mem _ mem)]
    rfl

theorem findSome?_failure? (known : m.index < g.models.size) (sites : List Site) :
    sites.findSome? (·.failure? (g.inMode m true) m) =
      (sites.filterMap (·.fault? g m)).findSome? Diagnostic.error? := by
  induction sites with
  | nil => rfl
  | cons site rest ih =>
    rw [List.findSome?_cons, failure?_inMode known, ih]
    cases fault : site.fault? g m with
    | none => rw [List.filterMap_cons_none fault]; rfl
    | some d =>
      rw [List.filterMap_cons_some fault, List.findSome?_cons]
      rfl

theorem filterMap_diagnosis? (known : m.index < g.models.size) (sites : List Site) :
    ((g.inMode m true).handled m sites).filterMap (·.diagnosis? (g.inMode m true) m) =
      (sites.filterMap (·.fault? g m)).takeWhile (·.error?.isNone) := by
  induction sites with
  | nil => rfl
  | cons site rest ih =>
    have failure : site.failure? (g.inMode m true) m = (site.fault? g m).bind Diagnostic.error? := failure?_inMode known
    have diagnosis : site.diagnosis? (g.inMode m true) m =
        if ((site.fault? g m).bind Diagnostic.error?).isSome then none else site.fault? g m := by
      rw [Site.diagnosis?, failure, fault?_inMode known]
    rw [handled, failure]
    cases fault : site.fault? g m with
    | none =>
      rw [fault] at diagnosis
      rw [List.filterMap_cons_none fault, ← ih]
      exact List.filterMap_cons_none diagnosis
    | some d =>
      rw [fault, Option.bind_some] at diagnosis
      rw [List.filterMap_cons_some fault, List.takeWhile_cons, Option.bind_some]
      cases mild : d.error? with
      | some e =>
        rw [mild] at diagnosis
        exact List.filterMap_cons_none diagnosis
      | none =>
        rw [mild] at diagnosis
        rw [← ih]
        exact List.filterMap_cons_some diagnosis

namespace Ready

variable (h : g.Ready id root)
include h

theorem inMode (m : ModelId) (strict : Bool) : (g.inMode m strict).Ready id root where
  linked := h.linked
  straight := h.straight
  made := h.made
  known := by
    rw [Graph.inMode, Table.size_modify]
    exact h.known
  pending := h.pending
  untold := h.untold
  found := h.found
  takes := h.takes

theorem compiled_inMode (strict : Bool) :
    let g' := g.inMode (g.compiler id).model strict
    Handling (g.compiler id).model (g'.start id root) (g'.handled (g.compiler id).model (g.sites id root))
        (g'.compiled id root).2 ∧
      g'.compiled id root = (Compilation.outcome ((g.sites id root).findSome? (·.failure? g' (g.compiler id).model)),
        (g'.handled (g.compiler id).model (g.sites id root)).foldl (·.handle (g.compiler id).model ·)
          (g'.start id root)) := by
  have ready := h.inMode (g.compiler id).model strict
  have handling := ready.handling
  have compiled := ready.compiled_eq
  rw [processed, sites_inMode h.known strict] at handling
  rw [sites_inMode h.known strict] at compiled
  exact ⟨handling, compiled⟩

theorem compiled_permissive :
    let m := (g.compiler id).model
    let free := (g.inMode m false).compiled id root
    Handling m ((g.inMode m false).start id root) (g.sites id root) free.2 ∧ free.1 = .ok () ∧
      free.2.diagnostics = (g.sites id root).filterMap (·.fault? g m) := by
  intro m free
  have faultless (site : Site) : site.failure? (g.inMode m false) m = none := failure?_inMode h.known
  obtain ⟨handling, compiled⟩ := h.compiled_inMode false
  rw [handled_of_faultless fun site _ => faultless site] at handling
  refine ⟨handling, ?_, ?_⟩
  · have all : (g.sites id root).findSome? (·.failure? (g.inMode m false) m) = none :=
      List.findSome?_eq_none_iff.2 fun site _ => faultless site
    exact (congrArg Prod.fst compiled).trans (congrArg Compilation.outcome all)
  · have diagnosis : (fun site : Site => site.diagnosis? (g.inMode m false) m) = (·.fault? g m) := by
      funext site
      rw [Site.diagnosis?, faultless, fault?_inMode h.known]
      rfl
    have before : ((g.inMode m false).start id root).diagnostics = [] := h.untold
    rw [handling.diagnostics (agrees_start (g.inMode m false) id root), diagnosis, before, List.nil_append]

theorem compiled_strict :
    let m := (g.compiler id).model
    let told := (g.sites id root).filterMap (·.fault? g m)
    let strict := (g.inMode m true).compiled id root
    strict.1 = Compilation.outcome (told.findSome? Diagnostic.error?) ∧
      strict.2.diagnostics = told.takeWhile (·.error?.isNone) ∧
      (told.findSome? Diagnostic.error? = none →
        strict.2 = ((g.inMode m false).compiled id root).2.inMode m true) := by
  intro m told strict
  obtain ⟨handling, compiled⟩ := h.compiled_inMode true
  have first : (g.sites id root).findSome? (·.failure? (g.inMode m true) m) = told.findSome? Diagnostic.error? :=
    findSome?_failure? h.known _
  refine ⟨(congrArg Prod.fst compiled).trans (congrArg Compilation.outcome first), ?_, fun sound => ?_⟩
  · have before : ((g.inMode m true).start id root).diagnostics = [] := h.untold
    rw [handling.diagnostics (agrees_start (g.inMode m true) id root), before, List.nil_append]
    exact filterMap_diagnosis? h.known _
  · -- no site fails in either mode, so both folds go over all sites
    have faultless : ∀ site ∈ g.sites id root, site.failure? (g.inMode m true) m = none :=
      List.findSome?_eq_none_iff.1 (first.trans sound)
    have same : ∀ site ∈ g.sites id root,
        site.failure? ((g.inMode m false).inMode m true) m = site.failure? (g.inMode m false) m := by
      intro site mem
      rw [inMode_inMode, faultless site mem, failure?_inMode h.known]
      rfl
    have free := h.compiled_permissive.1
    have begun : ((g.inMode m false).start id root).inMode m true = (g.inMode m true).start id root :=
      (g.start id root).inMode_inMode m false true
    have ended := free.inMode (agrees_start (g.inMode m false) id root) same
    rw [← ended, begun]
    exact (congrArg Prod.snd compiled).trans (by rw [handled_of_faultless faultless])

theorem init_modes :
    let m := (g.compiler id).model
    let told := (g.sites id root).filterMap (·.fault? g m)
    let free := (g.inMode m false).init id
    let strict := (g.inMode m true).init id
    free.1 = .ok () ∧ (free.2.compiler id).diagnostics = told ∧
      strict.1 = Compilation.outcome (told.findSome? Diagnostic.error?) ∧
      (strict.2.compiler id).diagnostics = told.takeWhile (·.error?.isNone) ∧
      (told.findSome? Diagnostic.error? = none → strict.2 = free.2.inMode m true) := by
  intro m told free strict
  obtain ⟨result, -, -, -, diagnostics⟩ := (h.inMode m false).init_spec
  obtain ⟨result', -, -, -, diagnostics'⟩ := (h.inMode m true).init_spec
  obtain ⟨-, done, all⟩ := h.compiled_permissive
  obtain ⟨failure, first, same⟩ := h.compiled_strict
  refine ⟨result.trans done, diagnostics.trans all, result'.trans failure, diagnostics'.trans first, fun sound => ?_⟩
  change ((g.inMode m true).init id).2 = ((g.inMode m false).init id).2.inMode m true
  rw [init_of_open (g := g.inMode m true) h.pending h.found h.takes,
    init_of_open (g := g.inMode m false) h.pending h.found h.takes, restored, restored, same sound]
  generalize (g.inMode m false).compiled id root = made
  rfl

end Ready

theorem init_modes_of_not_found (made : id.index < g.compilers.size) (pending : (g.compiler id).stage = .pending)
    (untold : (g.compiler id).diagnostics = [])
    (absent : g.root? id = none) (strict : Bool) :
    ((g.inMode m strict).init id).1 = .ok () ∧
      (((g.inMode m strict).init id).2.compiler id).diagnostics = [.rootNotFound (g.compiler id).selector] ∧
      ((g.inMode m strict).init id).2 = (g.init id).2.inMode m strict := by
  have done := init_of_not_found (g := g.inMode m strict) pending absent
  refine ⟨by rw [done], ?_, ?_⟩
  · rw [done, compiler_setCompiler, if_pos ⟨rfl, made⟩]
    exact congrArg (· ++ [Diagnostic.rootNotFound (g.compiler id).selector]) untold
  · rw [done, init_of_not_found pending absent]
    rfl

end Graph

theorem Diagnostic.isSome_error? (d : Diagnostic) :
    d.error?.isSome = true ↔ d.kind ∈ ["MissingMethod", "InvalidExpression", "MissingPath"] := by
  cases d <;> simp [error?, kind]

theorem Compilation.outcome_eq_error_iff {e? : Option Error} : (∃ e, outcome e? = .error e) ↔ e?.isSome = true := by
  cases e? <;> simp [outcome]

namespace Run

variable {h : History} {e : Engine} {c : CompilerId}

/-- The directives of the view-model may be strict or not, and all else the same. A permissive compilation goes
through, and a strict one fails if and only if the permissive one tells something that is an error where directives are
strict. The first of these is the error that the strict one ends with, and what was told before it is what the strict
one tells. If there is none both leave the same graph. -/
theorem modes_agree (run : Run h e) (founded : h.Founded) (allowed : e.Allows (.init c))
    (pending : (e.graph.compiler c).stage = .pending)
    (document : e.graph.forest.content (e.graph.compiler c).document = .document)
    (takes : ∀ root, e.graph.root? c = some root →
      (e.graph.forest.content root).takesChildren = true) :
    let g := e.graph
    let m := (g.compiler c).model
    let free := (g.inMode m false).init c
    let strict := (g.inMode m true).init c
    let told := (free.2.compiler c).diagnostics
    g.inMode m (g.model m).options.strictDirectives = g ∧ free.1 = .ok () ∧
      ((∃ err, strict.1 = .error err) ↔
        ∃ d ∈ told, d.kind ∈ ["MissingMethod", "InvalidExpression", "MissingPath"]) ∧
      strict.1 = Compilation.outcome (told.findSome? Diagnostic.error?) ∧
      (strict.2.compiler c).diagnostics = told.takeWhile (·.error?.isNone) ∧
      (strict.1 = .ok () → strict.2 = free.2.inMode m true) := by
  intro g m free strict told
  have agree : free.1 = .ok () ∧ strict.1 = Compilation.outcome (told.findSome? Diagnostic.error?) ∧
      (strict.2.compiler c).diagnostics = told.takeWhile (·.error?.isNone) ∧
      (told.findSome? Diagnostic.error? = none → strict.2 = free.2.inMode m true) := by
    cases found : g.root? c with
    | none =>
      have modes := Graph.init_modes_of_not_found (m := m) allowed.2.1 pending (run.untold founded c pending) found
      obtain ⟨result, diagnostics, graph⟩ := modes false
      obtain ⟨result', diagnostics', graph'⟩ := modes true
      have all : told = [.rootNotFound (g.compiler c).selector] := diagnostics
      rw [all]
      refine ⟨result, result', diagnostics', fun _ => ?_⟩
      change ((g.inMode m true).init c).2 = ((g.inMode m false).init c).2.inMode m true
      rw [graph', graph, Graph.inMode_inMode]
    | some root =>
      have ready := run.ready founded allowed pending document found (takes root found)
      obtain ⟨result, diagnostics, others⟩ := ready.init_modes
      have all : told = (g.sites c root).filterMap (·.fault? g m) := diagnostics
      rw [all]
      exact ⟨result, others⟩
  obtain ⟨result, failure, diagnostics, graph⟩ := agree
  refine ⟨Graph.inMode_self rfl, result, ?_, failure, diagnostics, fun done => graph ?_⟩
  · rw [failure, Compilation.outcome_eq_error_iff, List.findSome?_isSome_iff]
    simp only [Diagnostic.isSome_error?]
  · rw [failure] at done
    cases first : told.findSome? Diagnostic.error? with
    | none => rfl
    | some err =>
      rw [first] at done
      cases done

theorem laid_modes_agree :
    laid.graph.inMode ⟨0⟩ false = laid.graph ∧
      ((laid.graph.init ⟨0⟩).2.compiler ⟨0⟩).diagnostics = [.missingPath "model" ⟨[], "b"⟩, .missingArgument ":"] ∧
      ((laid.graph.inMode ⟨0⟩ true).init ⟨0⟩).1 = .error (.unknownPath ⟨[], "b"⟩ "model") ∧
      (((laid.graph.inMode ⟨0⟩ true).init ⟨0⟩).2.compiler ⟨0⟩).diagnostics = [] := by
  have query : laid.graph.root? ⟨0⟩ = some ⟨1⟩ :=
    by decide +kernel
  have takes : ∀ root, laid.graph.root? ⟨0⟩ = some root → (laid.graph.forest.content root).takesChildren = true := by
    intro root found
    obtain rfl := Option.some.inj (query.symm.trans found)
    decide +kernel
  obtain ⟨same, -, -, failure, diagnostics, -⟩ := modes_agree run_laid founded_laid allows_laid (by decide +kernel)
    ((Forest.eq_document_iff _).2 (by decide +kernel)) takes
  have model : (laid.graph.compiler ⟨0⟩).model = ⟨0⟩ := by decide +kernel
  have permissive : (laid.graph.model ⟨0⟩).options.strictDirectives = false := by decide +kernel
  have told : ((laid.graph.init ⟨0⟩).2.compiler ⟨0⟩).diagnostics =
      [.missingPath "model" ⟨[], "b"⟩, .missingArgument ":"] := by decide +kernel
  rw [model, permissive] at same
  rw [model, same, told] at failure diagnostics
  exact ⟨same, told, failure, diagnostics⟩

end Run

end DataBinding
