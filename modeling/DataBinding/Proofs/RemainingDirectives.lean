import DataBinding.Proofs.CompilationModes
import DataBinding.Proofs.InitializationFrame
import DataBinding.Proofs.MarkupStability

namespace DataBinding

variable {g : Graph} {m : ModelId} {n : NodeId} {c : Content} {legacy : Bool} {name mark value : String} {d : Directive}

namespace Directive

def Shows (legacy : Bool) (name : String) (pair : String × String) : Prop :=
  ofName? legacy pair.1 = some (.bind name) ∧ (trimmed pair.2).isEmpty = false ∧ (Path.read? pair.2).isSome = true

instance (legacy : Bool) (name : String) (pair : String × String) : Decidable (Shows legacy name pair) :=
  inferInstanceAs (Decidable (_ ∧ _ ∧ _))

theorem ne_of_bind (h : ofName? legacy mark = some (.bind name)) : name ≠ mark := by
  unfold ofName? at h
  split at h
  · cases h
  split at h
  · split at h <;> cases h
  split at h
  · next a found =>
    split at h
    · cases h
    · cases h
      obtain ⟨rest, first, rfl⟩ := Option.map_eq_some_iff.1 found
      obtain ⟨start, among, after⟩ := List.exists_of_findSome?_eq_some first
      have whole := Text.after?_eq_some_iff.1 after
      rintro rfl
      have blank : start.toList = [] := by simpa using whole
      rw [String.toList_eq_nil_iff.1 blank] at among
      revert among
      cases legacy <;> decide
  · cases h

end Directive

theorem mem_names_without : name ∈ (c.without mark).attributes.names ↔ name ∈ c.attributes.names ∧ name ≠ mark := by
  cases c with
  | element tag attributes v => simp [Content.without, Content.attributes, Fields.erase, Fields.names, List.mem_map]
  | _ => simp [Content.without, Content.attributes, Fields.names]

theorem mem_names_put {text a : String} (element : c.isElement = true) :
    name ∈ (c.put text (.attr n a)).attributes.names ↔ name ∈ c.attributes.names ∨ name = a := by
  cases c with
  | element tag attributes v =>
    rw [Content.put, Content.attributes, Content.attributes, Fields.names_set]
    split
    · next old => exact ⟨.inl, fun h => h.elim id fun same => same ▸ old⟩
    · rw [List.mem_append, List.mem_singleton]
  | _ => cases element

namespace Site

theorem path?_of_bind {a : String} (faultless : Site.failure? g m (.directive n mark value (.bind a)) = none) :
    (Site.path? g m (.directive n mark value (.bind a))).isSome = true ↔
      (trimmed value).isEmpty = false ∧ (Path.read? value).isSome = true := by
  rw [path?, faultless, expression?]
  cases (trimmed value).isEmpty <;> simp

@[simp] theorem isElement_rewrite (site : Site) (c : Content) : (site.rewrite g m c).isElement = c.isElement := by
  have filled : (site.fill g m c).isElement = c.isElement := by
    unfold fill Content.put
    split
    · split <;> rfl
    · rfl
  cases site with
  | text n expression => exact filled
  | directive n mark value d =>
    rw [rewrite, leave, ← filled]
    unfold Content.without
    split
    · next same => rw [same]; rfl
    · rfl

@[simp] theorem isElement_rewrites (sites : List Site) (c : Content) :
    (sites.foldl (fun c site => site.rewrite g m c) c).isElement = c.isElement := by
  induction sites generalizing c with
  | nil => rfl
  | cons site rest ih => rw [List.foldl_cons, ih, isElement_rewrite]

theorem mem_names_rewrite (recognized : Directive.ofName? legacy mark = some d)
    (faultless : Site.failure? g m (.directive n mark value d) = none) (element : c.isElement = true) :
    name ∈ (Site.rewrite g m (.directive n mark value d) c).attributes.names ↔
      (name ∈ c.attributes.names ∨ Directive.Shows legacy name (mark, value)) ∧ name ≠ mark := by
  rw [rewrite, leave, mem_names_without, and_congr_left_iff]
  intro other
  rw [Directive.Shows, recognized]
  cases d with
  | bind a =>
    rw [fill, Option.some.injEq, Directive.bind.injEq, ← path?_of_bind faultless]
    cases Site.path? g m (.directive n mark value (.bind a)) with
    | none => simp
    | some path =>
      have put : name ∈ (c.put (g.valueAt (g.model m).data path).text (.attr n a)).attributes.names ↔
          name ∈ c.attributes.names ∨ name = a := mem_names_put element
      simpa [slot?, eq_comm] using put
  | model =>
    rw [fill]
    cases Site.path? g m (.directive n mark value .model) with
    | none => simp
    | some path =>
      cases c with
      | element tag attributes v => simp [slot?, Content.put, Content.attributes]
      | _ => cases element
  | _ => simp [fill, path?, expression?]

end Site

def directivesOf (legacy : Bool) (n : NodeId) (attributes : Fields String) : List Site :=
  attributes.filterMap fun (name, value) => (Directive.ofName? legacy name).map (.directive n name value)

theorem directivesOf_cons (rest : Fields String) : directivesOf legacy n ((mark, value) :: rest) =
    ((Directive.ofName? legacy mark).map (Site.directive n mark value)).toList ++ directivesOf legacy n rest := by
  rw [directivesOf, List.filterMap_cons, directivesOf]
  dsimp only
  cases Directive.ofName? legacy mark <;> rfl

theorem exists_split_cons {α : Type} {P : α → List α → Prop} {a : α} {as : List α} :
    (∃ before b after, a :: as = before ++ b :: after ∧ P b after) ↔
      P a as ∨ ∃ before b after, as = before ++ b :: after ∧ P b after := by
  constructor
  · rintro ⟨_ | ⟨first, before⟩, b, after, same, holds⟩
    · cases same
      exact .inl holds
    · cases same
      exact .inr ⟨before, b, after, rfl, holds⟩
  · rintro (holds | ⟨before, b, after, rfl, holds⟩)
    · exact ⟨[], a, as, rfl, holds⟩
    · exact ⟨a :: before, b, after, rfl, holds⟩

theorem mem_names_rewrites {attributes : Fields String} (recognized : Directive.ofName? legacy name = some d)
    (faultless : ∀ site ∈ directivesOf legacy n attributes, site.failure? g m = none) (element : c.isElement = true) :
    name ∈ ((directivesOf legacy n attributes).foldl (fun c site => site.rewrite g m c) c).attributes.names ↔
      (name ∈ c.attributes.names ∧ name ∉ attributes.names) ∨
        ∃ before pair after, attributes = before ++ pair :: after ∧
          Directive.Shows legacy name pair ∧ name ∉ Fields.names after := by
  induction attributes generalizing c with
  | nil => simp [directivesOf, Fields.names]
  | cons pair rest ih =>
    obtain ⟨mark, value⟩ := pair
    have names : Fields.names ((mark, value) :: rest) = mark :: Fields.names rest := rfl
    rw [exists_split_cons, names, List.mem_cons, not_or]
    rw [directivesOf_cons] at faultless ⊢
    cases asked : Directive.ofName? legacy mark with
    | none =>
      rw [asked] at faultless
      have other : name ≠ mark := by
        rintro rfl
        cases asked.symm.trans recognized
      have silent : ¬ Directive.Shows legacy name (mark, value) := by simp [Directive.Shows, asked]
      simpa [other, silent] using ih faultless element
    | some d' =>
      rw [asked] at faultless
      have here := faultless _ List.mem_cons_self
      have step : name ∈ (Site.rewrite g m (.directive n mark value d') c).attributes.names ↔
          (name ∈ c.attributes.names ∨ Directive.Shows legacy name (mark, value)) ∧ name ≠ mark :=
        Site.mem_names_rewrite asked here element
      have next := ih (fun site mem => faultless site (List.mem_cons_of_mem _ mem))
        ((Site.isElement_rewrite (g := g) (m := m) (.directive n mark value d') c).trans element)
      have apart : Directive.Shows legacy name (mark, value) → name ≠ mark := fun shows => Directive.ne_of_bind shows.1
      refine next.trans ?_
      rw [step, and_assoc, or_and_right, or_assoc]
      apply or_congr
      · exact Iff.rfl
      · apply or_congr_left
        exact ⟨fun h => ⟨h.1, h.2.2⟩, fun h => ⟨h.1, apart h.1, h.2⟩⟩

namespace Forest

variable {f : Forest} {root : NodeId}

theorem filter_sitesOf {nodes : List NodeId} (distinct : nodes.Nodup) (mem : n ∈ nodes) :
    (nodes.flatMap (f.sitesOf legacy)).filter (·.node = n) = f.sitesOf legacy n := by
  have here (k : NodeId) : (f.sitesOf legacy k).filter (·.node = n) = if k = n then f.sitesOf legacy k else [] := by
    split
    · next same =>
      apply List.filter_eq_self.2
      intro site mem
      rw [(Compilation.takes_of_mem_sitesOf mem).2, same, decide_eq_true rfl]
    · next other =>
      apply List.filter_eq_nil_iff.2
      intro site mem
      rw [(Compilation.takes_of_mem_sitesOf mem).2, decide_eq_true_eq]
      exact other
  induction nodes with
  | nil => cases mem
  | cons k rest ih =>
    obtain ⟨new, distinct⟩ := List.nodup_cons.1 distinct
    rw [List.flatMap_cons, List.filter_append, here]
    rcases List.mem_cons.1 mem with rfl | mem
    · have none : (rest.flatMap (f.sitesOf legacy)).filter (·.node = n) = [] := by
        apply List.filter_eq_nil_iff.2
        intro site among
        obtain ⟨k, mem, among⟩ := List.mem_flatMap.1 among
        rw [(Compilation.takes_of_mem_sitesOf among).2, decide_eq_true_eq]
        exact fun same => new (same ▸ mem)
      rw [if_pos rfl, none, List.append_nil]
    · have other : k ≠ n := fun same => new (same ▸ mem)
      rw [if_neg other, List.nil_append, ih distinct mem]

theorem Linked.filter_sites (h : f.Linked) (straight : f.Straight root) (below : f.Below n root) :
    (f.sites legacy root).filter (·.node = n) = f.sitesOf legacy n := by
  rw [← flatMap_offspring]
  exact filter_sitesOf (h.nodup_offspringWithin straight f.size) ((h.mem_offspring straight).2 below)

theorem directivesOf_attributes (f : Forest) (n : NodeId) (element : (f.content n).isElement = true) :
    directivesOf legacy n (f.content n).attributes = f.sitesOf legacy n := by
  rw [sitesOf]
  cases hc : f.content n with
  | element tag attributes v => rfl
  | _ => rw [hc] at element; cases element

end Forest

namespace Graph.Ready

variable {id : CompilerId} {root : NodeId} (h : g.Ready id root)
include h

theorem faultless_of_ok (done : (g.init id).1 = .ok ()) :
    ∀ site ∈ g.sites id root, site.failure? g (g.compiler id).model = none := by
  apply List.findSome?_eq_none_iff.1
  rw [h.init_spec.1, h.compiled_eq] at done
  generalize (g.sites id root).findSome? (·.failure? g (g.compiler id).model) = failed at done ⊢
  cases failed with
  | none => rfl
  | some e => cases done

theorem content_of_ok (done : (g.init id).1 = .ok ()) (below : g.forest.Below n root) :
    (g.init id).2.forest.content n =
      (g.forest.sitesOf (g.model (g.compiler id).model).options.legacyPrefixes n).foldl
        (fun content site => site.rewrite g (g.compiler id).model content) (g.forest.content n) := by
  rw [h.content_init, processed, handled_of_faultless (h.faultless_of_ok done), sites,
    h.linked.filter_sites h.straight below]

theorem below_init : (g.init id).2.forest.Below = g.forest.Below := by
  have under : (g.init id).2.forest.Under = g.forest.Under := by
    funext a b
    rw [Forest.Under, h.parent_init, Forest.Under]
  rw [Forest.Below, under, Forest.Below]

end Graph.Ready

namespace Run

variable {h : History} {e : Engine} {c : CompilerId} {root : NodeId}

/-- After a compilation that goes through, a node below the root has an attribute with the name of a directive if and
only if it had a binding to a path, with this name as its argument, and no directive with this name after it. -/
theorem directive_left_iff (run : Run h e) (founded : h.Founded) (allowed : e.Allows (.init c))
    (pending : (e.graph.compiler c).stage = .pending)
    (document : e.graph.forest.content (e.graph.compiler c).document = .document)
    (found : e.graph.root? c = some root) (takes : (e.graph.forest.content root).takesChildren = true)
    (done : (e.graph.init c).1 = .ok ()) :
    let g := e.graph
    let legacy := (g.model (g.compiler c).model).options.legacyPrefixes
    let f' := (e.perform (.init c)).graph.forest
    ∀ n, f'.Below n root → ∀ name, (Directive.ofName? legacy name).isSome = true →
      (name ∈ (f'.content n).attributes.names ↔
        ∃ before pair after, (g.forest.content n).attributes = before ++ pair :: after ∧
          Directive.Shows legacy name pair ∧ name ∉ Fields.names after) := by
  have ready := run.ready founded allowed pending document found takes
  intro g legacy f' n below name recognized
  obtain ⟨d, recognized⟩ := Option.isSome_iff_exists.1 recognized
  have before : g.forest.Below n root := ready.below_init ▸ below
  have content : f'.content n = _ := ready.content_of_ok done before
  have faultless : ∀ site ∈ g.forest.sitesOf legacy n, site.failure? g (g.compiler c).model = none := by
    intro site mem
    apply ready.faultless_of_ok done
    rw [← ready.linked.filter_sites ready.straight before] at mem
    exact List.mem_of_mem_filter mem
  by_cases element : (g.forest.content n).isElement = true
  · rw [← Forest.directivesOf_attributes g.forest n element] at content faultless
    rw [content, mem_names_rewrites recognized faultless element]
    exact or_iff_right fun both => both.2 both.1
  · -- what is no element has no attributes, neither before nor after
    have bare {c : Content} (other : ¬ c.isElement = true) : c.attributes = [] := by
      cases c with
      | element tag attributes v => exact absurd rfl other
      | _ => rfl
    have still : ¬ (f'.content n).isElement = true := by rwa [content, Site.isElement_rewrites]
    simp [bare still, bare element, Fields.names]

/-- Two bindings that are shown in attributes with names of directives. The second has such a directive after it. -/
def naming : Scene where
  before :=
    [.createStore [("a", .string "x")], .createModel { data := ⟨0⟩, methods := [("go", ⟨0⟩)], options := {} }]
  markup := "<div><p :model='a'><b :@x='a' @x='go'></b></p></div>"
  later := [.createCompiler ⟨0⟩ "div" ⟨0⟩]

def unnamed : Engine := naming.ended

def named : Engine := unnamed.perform (.init ⟨0⟩)

theorem plays_naming : naming.plays = true ∧ (unnamed.graph.init ⟨0⟩).1.isOk = true ∧
    named.graph.forest.Under ⟨2⟩ ⟨1⟩ := by decide +kernel

theorem run_unnamed : Run naming.history unnamed ∧ naming.history.Founded :=
  ⟨Scene.run plays_naming.1, (Scene.proper plays_naming.1).1⟩

theorem init_unnamed : (unnamed.graph.init ⟨0⟩).1 = .ok () := by
  have done := plays_naming.2.1
  cases result : (unnamed.graph.init ⟨0⟩).1 with
  | ok u => rfl
  | error err => rw [result] at done; cases done

theorem below_named : named.graph.forest.Below ⟨2⟩ ⟨1⟩ := .single plays_naming.2.2

theorem named_directive_left :
    (unnamed.graph.init ⟨0⟩).1 = .ok () ∧ named.graph.forest.Below ⟨2⟩ ⟨1⟩ ∧
      (unnamed.graph.forest.content ⟨2⟩).attributes = [(":model", "a")] ∧
      "model" ∈ (named.graph.forest.content ⟨2⟩).attributes.names ∧
      (named.graph.forest.content ⟨3⟩).attributes = [] := by
  have allowed : unnamed.Allows (.init ⟨0⟩) := by decide +kernel
  have found : unnamed.graph.root? ⟨0⟩ = some ⟨1⟩ := by decide +kernel
  have left := directive_left_iff run_unnamed.1 run_unnamed.2 allowed (by decide +kernel)
    ((Forest.eq_document_iff _).2 (by decide +kernel)) found (by decide +kernel) init_unnamed ⟨2⟩ below_named
  have attributes : (unnamed.graph.forest.content ⟨2⟩).attributes = [(":model", "a")] := by decide +kernel
  rw [attributes] at left
  exact ⟨init_unnamed, below_named, attributes,
    (left "model" (by decide +kernel)).2 ⟨[], (":model", "a"), [], rfl, by decide +kernel, nofun⟩, by decide +kernel⟩

/-- Compilation goes through, and an element below the root has an attribute with the name of a directive. -/
theorem directive_remains :
    Run naming.history unnamed ∧ naming.history.Founded ∧ unnamed.Allows (.init ⟨0⟩) ∧
      (unnamed.graph.compiler ⟨0⟩).stage = .pending ∧
      unnamed.graph.forest.content (unnamed.graph.compiler ⟨0⟩).document = .document ∧
      unnamed.graph.root? ⟨0⟩ = some ⟨1⟩ ∧ (unnamed.graph.forest.content ⟨1⟩).takesChildren = true ∧
      (unnamed.graph.init ⟨0⟩).1 = .ok () ∧ named.graph.forest.Below ⟨2⟩ ⟨1⟩ ∧
      Directive.ofName? (unnamed.graph.model (unnamed.graph.compiler ⟨0⟩).model).options.legacyPrefixes "model" =
        some .model ∧
      (named.graph.forest.content ⟨2⟩).attributes = [("model", "x")] :=
  ⟨run_unnamed.1, run_unnamed.2, by decide +kernel, by decide +kernel, (Forest.eq_document_iff _).2 (by decide +kernel),
    by decide +kernel, by decide +kernel, init_unnamed, below_named, by decide +kernel, by decide +kernel⟩

end Run

end DataBinding
