import DataBinding.Proofs.SiteOutcomes

namespace DataBinding

variable {g : Graph} {m : ModelId} {id : CompilerId} {root n : NodeId} {site : Site} {sites : List Site} {name : String}

theorem get?_put (c : Content) (text : String) {slot : Slot} (other : slot ≠ .attr slot.node name) :
    (c.put text slot).attributes.get? name = c.attributes.get? name := by
  unfold Content.put
  split
  · rfl
  · next tag attributes value n' name' =>
    rw [Content.attributes, Fields.get?_set, if_neg]
    · rfl
    · rintro rfl
      exact other rfl
  · rfl
  · rfl

theorem get?_without (c : Content) {name' : String} (other : name ≠ name') :
    (c.without name').attributes.get? name = c.attributes.get? name := by
  unfold Content.without
  split
  · simp [Content.attributes, other]
  · rfl

namespace Site

def Concerns (name : String) : Site → Prop
  | .directive _ name' _ d => name' = name ∨ d = .bind name
  | .text _ _ => False

theorem get?_rewrite (c : Content) (free : ¬ site.Concerns name) :
    (site.rewrite g m c).attributes.get? name = c.attributes.get? name := by
  have filled : (site.fill g m c).attributes.get? name = c.attributes.get? name := by
    unfold fill
    split
    · next path slot bound asked =>
      apply get?_put
      rintro same
      cases site with
      | text n expression => cases asked; cases same
      | directive n name' value d =>
        cases d with
        | bind a =>
          cases asked
          cases same
          exact free (.inr rfl)
        | model => cases asked; cases same
        | _ => cases asked
    · rfl
  cases site with
  | text n expression => exact filled
  | directive n name' value d =>
    rw [rewrite, leave, get?_without _ fun same => free (.inl same.symm)]
    exact filled

theorem get?_rewrites (c : Content) (free : ∀ site ∈ sites, ¬ site.Concerns name) :
    (sites.foldl (fun c site => site.rewrite g m c) c).attributes.get? name = c.attributes.get? name := by
  induction sites generalizing c with
  | nil => rfl
  | cons site rest ih =>
    rw [List.foldl_cons, ih _ fun site mem => free site (List.mem_cons_of_mem _ mem)]
    exact get?_rewrite c (free site List.mem_cons_self)

end Site

namespace Graph

theorem listenersOf_of_elsewhere (elsewhere : ∀ site ∈ sites, site.node ≠ n) (r : Nat) :
    g.listenersOf m n (g.numbered m r sites) = [] := by
  induction sites generalizing r with
  | nil => rfl
  | cons site rest ih =>
    rw [numbered, listenersOf_cons, if_neg (elsewhere site List.mem_cons_self).symm,
      ih fun site mem => elsewhere site (List.mem_cons_of_mem _ mem)]
    rfl

namespace Ready

variable (h : g.Ready id root)
include h

theorem below_of_processed (mem : site ∈ g.processed id root) :
    g.forest.Below site.node root ∧ g.forest.takes site.slot := by
  have mem := (g.handled_prefix _ _).subset mem
  refine ⟨?_, Forest.takes_of_mem_sites mem⟩
  rw [sites, ← Forest.flatMap_offspring] at mem
  obtain ⟨n, below, mem⟩ := List.mem_flatMap.1 mem
  rw [(Compilation.takes_of_mem_sitesOf mem).2]
  exact (h.linked.mem_offspring h.straight).1 below

theorem untouched (elsewhere : ∀ site ∈ g.processed id root, site.node ≠ n) :
    (g.init id).2.forest.content n = g.forest.content n ∧
      ((g.init id).2.forest.node n).listeners = (g.forest.node n).listeners := by
  have none : (g.processed id root).filter (·.node = n) = [] := by
    apply List.filter_eq_nil_iff.2
    intro site mem
    simpa using elsewhere site mem
  rw [h.content_init, h.listeners_init, none, listenersOf_of_elsewhere elsewhere, List.append_nil]
  exact ⟨rfl, rfl⟩

theorem untouched_of_not_below (outside : ¬ g.forest.Below n root) :
    (g.init id).2.forest.content n = g.forest.content n ∧
      ((g.init id).2.forest.node n).listeners = (g.forest.node n).listeners := by
  apply h.untouched
  rintro site mem rfl
  exact outside (h.below_of_processed mem).1

theorem text_init {text : String} (content : g.forest.content n = .text text)
    (unbound : ∀ expression, .text n expression ∉ g.processed id root) :
    (g.init id).2.forest.content n = .text text := by
  refine (h.untouched ?_).1.trans content
  rintro site mem rfl
  have takes := (h.below_of_processed mem).2
  cases site with
  | text n expression => exact unbound expression mem
  | directive n name value d =>
    -- directives stand at elements
    rw [Forest.takes, Site.slot, Slot.node] at takes
    change g.forest.content n = .text text at content
    rw [content] at takes
    cases takes

theorem get?_init (unbound : ∀ site ∈ g.processed id root, site.node = n → ¬ site.Concerns name) :
    ((g.init id).2.forest.content n).attributes.get? name = (g.forest.content n).attributes.get? name := by
  rw [h.content_init]
  apply Site.get?_rewrites
  intro site mem
  obtain ⟨mem, here⟩ := List.mem_filter.1 mem
  exact unbound site mem (by simpa using here)

theorem linked_compiled : (g.compiled id root).2.graph.forest.Linked :=
  (h.linked.wrap root).alike (alike_compiled g id root)

theorem children_init (n : NodeId) : (g.init id).2.forest.children n = g.forest.children n := by
  let f := (g.compiled id root).2.graph.forest
  have same := alike_compiled g id root
  have wrapped (n : NodeId) : f.children n =
      if n = ⟨g.forest.size⟩ then g.forest.children root else if n = root then [] else g.forest.children n :=
    (same.children n).trans (h.linked.children_wrap h.exist n)
  have exist : root.index < f.size := by
    rw [same.size, Forest.size_wrap]
    exact Nat.lt_succ_of_lt h.exist
  have takes : (f.content root).takesChildren = true := by
    rw [same.takesChildren, Forest.content_wrap]
    exact h.takes
  have apart : root ≠ ⟨g.forest.size⟩ := by
    rintro rfl
    exact Nat.lt_irrefl _ h.exist
  rw [h.init_spec.2.1, restored, (Forest.alike_retain _ root).children,
    h.linked_compiled.children_moved exist takes apart]
  change (if n = root then f.children root ++ f.children ⟨g.forest.size⟩
    else if n = ⟨g.forest.size⟩ then [] else f.children n) = _
  -- the root had been emptied, so what goes back to it is all that it has
  rw [wrapped, if_neg apart, if_pos rfl, wrapped, if_pos rfl]
  split
  · next here => rw [here, List.nil_append]
  · next other =>
    split
    · next fragment =>
      rw [fragment]
      exact (Forest.children_of_size_le (Nat.le_refl g.forest.size)).symm
    · next old => rw [wrapped, if_neg old, if_neg other]

theorem parent_init (n : NodeId) : ((g.init id).2.forest.node n).parent = (g.forest.node n).parent := by
  have linked := (linked_init h.linked id).1
  apply Option.ext
  intro p
  have agree := linked.agree (p := p) (c := n)
  rw [h.children_init, h.linked.agree] at agree
  exact agree.symm

theorem fragment_init : (g.init id).2.forest.content ⟨g.forest.size⟩ = .fragment ∧
    (g.init id).2.forest.children ⟨g.forest.size⟩ = [] := by
  have absent := Forest.node_of_size_le (n := ⟨g.forest.size⟩) (Nat.le_refl g.forest.size)
  have outside : ¬ g.forest.Below ⟨g.forest.size⟩ root := fun below => Nat.lt_irrefl _ below.exists
  rw [(h.untouched_of_not_below outside).1, h.children_init, Forest.content, Forest.children, absent]
  exact ⟨rfl, rfl⟩

theorem size_init : (g.init id).2.forest.size = g.forest.size + 1 := by
  rw [h.init_spec.2.1, (keeps_restored g id root).size, (alike_compiled g id root).size, Forest.size_wrap]

theorem strict_of_error {err : Error} (failed : (g.init id).1 = .error err) :
    (g.model (g.compiler id).model).options.strictDirectives = true := by
  have permissive (site : Site) (free : (g.model (g.compiler id).model).options.strictDirectives = false) :
      site.failure? g (g.compiler id).model = none := by
    rw [Site.failure?, free]
    rfl
  rw [h.init_spec.1, h.compiled_eq] at failed
  apply Bool.of_not_eq_false
  intro free
  rw [List.findSome?_eq_none_iff.2 fun site _ => permissive site free] at failed
  cases failed

theorem known_init {r : RegistryRef} {s : SubscriberId} (listed : s ∈ (g.init id).2.readers r) :
    s ∈ g.readers r ∨ s ∈ ((g.init id).2.compiler id).watchers := by
  rcases (initializes_init h.known).extended.grows.known listed with old | ⟨low, high⟩
  · exact .inl old
  · right
    obtain ⟨-, -, subscribers, watchers, -⟩ := h.init_spec
    rw [subscribers] at high
    rw [watchers, (compiled_compiled h.known root).watchers]
    refine List.mem_append_right _ (List.mem_map.2 ⟨s.index, ?_, rfl⟩)
    change s.index ∈ List.range' g.subscribers.size _
    rw [List.mem_range'_1]
    change _ ∧ _ < g.subscribers.size + ((g.compiled id root).2.graph.subscribers.size - g.subscribers.size)
    omega

end Ready

end Graph

namespace Run

variable {h : History} {e : Engine} {c : CompilerId}

/-- A compilation, also one that fails, leaves every node where it was. One fragment is new, and empty. The root and
what is not below it stays as it was, and so do texts without a site of their own and attributes that no site concerns.
No property is written, no subscriber changes, no callback is due, and registries gain nothing but watchers of the
compiler. -/
theorem init_leaves_alone (run : Run h e) (founded : h.Founded) (allowed : e.Allows (.init c))
    (pending : (e.graph.compiler c).stage = .pending)
    (document : e.graph.forest.content (e.graph.compiler c).document = .document) (found : e.graph.root? c = some root)
    (takes : (e.graph.forest.content root).takesChildren = true) :
    let g := e.graph
    let f := g.forest
    let processed := g.processed c root
    let g' := (e.perform (.init c)).graph
    let f' := g'.forest
    (∀ err, (g.init c).1 = .error err → (g.model (g.compiler c).model).options.strictDirectives = true) ∧
      (∀ n, f'.children n = f.children n ∧ (f'.node n).parent = (f.node n).parent) ∧
      (f'.size = f.size + 1 ∧ f'.content ⟨f.size⟩ = .fragment ∧ f'.children ⟨f.size⟩ = []) ∧
      (f'.content root = f.content root ∧ ∀ n, ¬ f.Below n root →
        f'.content n = f.content n ∧ (f'.node n).listeners = (f.node n).listeners) ∧
      (∀ n text, f.content n = .text text → (∀ expression, .text n expression ∉ processed) →
        f'.content n = .text text) ∧
      (∀ n name, (∀ site ∈ processed, site.node = n → ¬ site.Concerns name) →
        (f'.content n).attributes.get? name = (f.content n).attributes.get? name) ∧
      (∀ t k, g'.property? t k = g.property? t k) ∧
      ((∀ s, s.index < g.subscribers.size → g'.subscriber s = g.subscriber s) ∧
        (e.perform (.init c)).frames = e.frames ∧ (e.perform (.init c)).turn = e.turn) ∧
      ∀ r, g.readers r <+: g'.readers r ∧ ∀ s ∈ g'.readers r, s ∈ g.readers r ∨ s ∈ (g'.compiler c).watchers := by
  have ready := run.ready founded allowed pending document found takes
  have grows := (Graph.initializes_init ready.known).extended.grows
  intro g f processed g' f'
  have outside (n : NodeId) (apart : ¬ f.Below n root) := ready.untouched_of_not_below apart
  exact ⟨fun err => ready.strict_of_error, fun n => ⟨ready.children_init n, ready.parent_init n⟩,
    ⟨ready.size_init, ready.fragment_init⟩, ⟨(outside root (ready.straight root .refl)).1, outside⟩,
    fun n text => ready.text_init, fun n name => ready.get?_init, grows.property, ⟨fun s => grows.old, rfl, rfl⟩,
    fun r => ⟨grows.readers r, fun s => ready.known_init⟩⟩

def furnished : Scene where
  before := preparing
  markup := "<div><p title='t' :class='a'><b>\x7b\x7b \x7d\x7d</b>x</p></div>"
  later := [.createCompiler ⟨0⟩ "div" ⟨0⟩]

def mounted : Engine := furnished.ended

def halted : Engine := mounted.perform (.init ⟨0⟩)

theorem halted_leaves_alone :
    (mounted.graph.init ⟨0⟩).1.isOk = false ∧
      mounted.graph.processed ⟨0⟩ ⟨1⟩ = [.directive ⟨2⟩ ":class" "a" (.bind "class"), .text ⟨4⟩ ""] ∧
      (∀ n, halted.graph.forest.children n = mounted.graph.forest.children n) ∧
      halted.graph.forest.content ⟨1⟩ = mounted.graph.forest.content ⟨1⟩ ∧
      halted.graph.forest.content ⟨5⟩ = .text "x" ∧
      (halted.graph.forest.content ⟨2⟩).attributes.get? "title" = some "t" ∧
      (halted.graph.forest.content ⟨2⟩).attributes.get? "class" = some "x" := by
  have plays : furnished.plays = true := by decide +kernel
  have run : Run furnished.history mounted := Scene.run plays
  have allows : mounted.Allows (.init ⟨0⟩) := by decide +kernel
  have found : mounted.graph.root? ⟨0⟩ = some ⟨1⟩ := by decide +kernel
  have sites : mounted.graph.processed ⟨0⟩ ⟨1⟩ = [.directive ⟨2⟩ ":class" "a" (.bind "class"), .text ⟨4⟩ ""] := by
    decide +kernel
  obtain ⟨-, links, -, ⟨top, -⟩, texts, attributes, -⟩ := init_leaves_alone run (Scene.proper plays).1 allows
    (by decide +kernel) ((Forest.eq_document_iff _).2 (by decide +kernel)) found (by decide +kernel)
  rw [sites] at texts attributes
  have text : mounted.graph.forest.content ⟨5⟩ = .text "x" :=
    Content.eq_text_of_shows (n := ⟨5⟩) (by decide +kernel)
  have title : (mounted.graph.forest.content ⟨2⟩).attributes.get? "title" = some "t" := by decide +kernel
  refine ⟨by decide +kernel, sites, fun n => (links n).1, top, texts _ _ text (by simp), ?_, by decide +kernel⟩
  refine (attributes ⟨2⟩ "title" ?_).trans title
  simp [Site.Concerns]

end Run

end DataBinding
