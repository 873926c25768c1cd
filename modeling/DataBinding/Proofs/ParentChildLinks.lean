import DataBinding.Proofs.MarkupStability
import DataBinding.Proofs.NodeAdoption

namespace DataBinding

open DataBinding.Forest (Alike)

variable {m : ModelId} {names : NodeId → String → Prop} {g g' : Graph} {f f' : Forest} {n root : NodeId}
  {slot : Slot} {text : String}

namespace Forest

theorem alike_fill (takes : f.takes slot) (filled : f.fill slot text = .ok f') : Alike f f' := by
  rw [fill_eq takes] at filled
  cases filled
  exact alike_put f text slot

theorem matched_of_findWithin {s : Selector} {k : Nat} (found : f.findWithin s k n = some root) :
    (f.content root).matched s = true := by
  rw [findWithin_eq] at found
  exact (List.find?_eq_some_iff_append.1 found).1

theorem isElement_of_query? {document : NodeId} {selector : String}
    (found : f.query? document selector = some root) : (f.content root).isElement = true := by
  obtain ⟨s, -, found⟩ := Option.bind_eq_some_iff.1 found
  have matched := matched_of_findWithin found
  cases hc : f.content root with
  | element tag attributes value => rfl
  | _ => rw [hc] at matched; cases matched

theorem exists_of_query? {document : NodeId} {selector : String}
    (found : f.query? document selector = some root) : root.index < f.size := by
  apply exists_of_content
  intro fragment
  have element := isElement_of_query? found
  rw [fragment] at element
  cases element

theorem Linked.below_of_findWithin (h : f.Linked) {s : Selector} {k : Nat}
    (found : f.findWithin s k n = some root) : f.Below root n := by
  rw [findWithin_eq] at found
  exact h.below_of_mem_offspringWithin (List.mem_of_find?_eq_some found)

theorem Linked.straight_of_query? (h : f.Linked) {document : NodeId} {selector : String}
    (kind : f.content document = .document) (found : f.query? document selector = some root) : f.Straight root := by
  have top : (f.node document).parent = none := by
    cases parent : (f.node document).parent with
    | none => rfl
    | some p =>
      have placed := h.placed (show f.Under document p from parent)
      rw [kind] at placed
      rcases placed with placed | placed <;> cases placed
  obtain ⟨s, -, found⟩ := Option.bind_eq_some_iff.1 found
  exact (straight_of_top top).of_below (h.below_of_findWithin found)

theorem exists_fragment (f : Forest) : f.size < (f.create .fragment).2.size := by
  simp

theorem Linked.wrap (h : f.Linked) (root : NodeId) : (f.wrap root).Linked :=
  (h.create .fragment).adoptAll (exists_fragment f) (by rw [content_created]; rfl) fun _ => (h.create .fragment).fits

theorem Acyclic.wrap (h : f.Acyclic) (linked : f.Linked) (root : NodeId) : (f.wrap root).Acyclic := by
  apply (h.create .fragment).adoptAll
  · exact fun c hc => ((linked.create .fragment).fits hc).exist
  · intro c hc
    have exist : c.index < f.size := (under_create.1 ((linked.create .fragment).agree.1 hc)).exists
    constructor
    · rintro rfl
      exact Nat.lt_irrefl _ exist
    · intro below
      exact Nat.lt_irrefl _ (below_create.1 below).exists

theorem Linked.under_wrap (h : f.Linked) {a b : NodeId} :
    (f.wrap root).Under a b ↔ if f.Under a root then b = ⟨f.size⟩ else f.Under a b := by
  have created := h.create .fragment
  rw [Forest.wrap, under_adoptAll fun c hc => (created.fits hc).exist, under_create]
  simp only [created.agree, under_create]

@[simp] theorem content_wrap (f : Forest) (root n : NodeId) : (f.wrap root).content n = f.content n :=
  ((keeps_adoptAll _ _ _).content n).trans (content_createFragment f n)

@[simp] theorem size_wrap (f : Forest) (root : NodeId) : (f.wrap root).size = f.size + 1 :=
  (keeps_adoptAll _ _ _).size.trans (size_create f _)

theorem Linked.below_of_wrap (h : f.Linked) {a b : NodeId} (below : (f.wrap root).Below a b)
    (old : b.index < f.size) : f.Below a b := by
  have step {a b : NodeId} (old : b.index < f.size) (under : (f.wrap root).Under a b) : f.Under a b := by
    rw [h.under_wrap] at under
    split at under
    · rw [under] at old
      exact absurd old (Nat.lt_irrefl _)
    · exact under
  induction below with
  | single under => exact .single (step old under)
  | tail _ under ih => exact (ih (step old under).exists).tail (step old under)

theorem Acyclic.not_below_wrap (h : f.Acyclic) (linked : f.Linked) (root : NodeId) :
    ¬ (f.wrap root).Below root ⟨f.size⟩ := by
  intro below
  obtain ⟨c, path, under⟩ := Relation.TransGen.tail'_iff.1 below
  have child : f.Under c root := by
    rw [linked.under_wrap] at under
    split at under
    · next child => exact child
    · exact absurd (linked.exists_of_under under) (Nat.lt_irrefl _)
  -- the root would be below its own child, or the same
  rcases Relation.reflTransGen_iff_eq_or_transGen.1 path with rfl | below
  · exact h _ (.single child)
  · exact h _ ((linked.below_of_wrap below child.exists).tail child)

end Forest

theorem alike_createWatcher (g : Graph) (m : ModelId) (path : Path) (reaction : Reaction) :
    Alike g.forest (g.createWatcher m path reaction).2.forest := by
  rw [(Graph.gains_createWatcher g m path reaction).forest]
  split
  · exact Forest.alike_retain _ _
  · exact .refl _

theorem Piece.alike (h : Piece m names g g') : Alike g.forest g'.forest := by
  cases h with
  | createRecord v => exact .refl _
  | setRecord r v => exact .refl _
  | watch path target takes named => exact alike_createWatcher _ _ _ _
  | fill text takes named => exact Forest.alike_put _ _ _
  | listen n event listener => exact Forest.alike_listen _ _ _ _
  | strip n name => exact Forest.alike_without _ _ _

theorem Pieces.alike (h : Pieces m names g g') : Alike g.forest g'.forest := by
  induction h with
  | nil => exact .refl _
  | snoc _ piece ih => exact ih.trans piece.alike

namespace Graph

variable {id : CompilerId}

def root? (g : Graph) (id : CompilerId) : Option NodeId :=
  g.forest.query? (g.compiler id).document (g.compiler id).selector

def compiled (g : Graph) (id : CompilerId) (root : NodeId) : Except Error Unit × Progress :=
  (Compilation.compileBelow (g.compiler id).model (g.forest.wrap root).size ⟨g.forest.size⟩).run.run
    { graph := { g with forest := g.forest.wrap root }, diagnostics := (g.compiler id).diagnostics }

theorem alike_compiled (g : Graph) (id : CompilerId) (root : NodeId) :
    Alike (g.forest.wrap root) (g.compiled id root).2.graph.forest := by
  have made := Compilation.consists_compileBelow Compilation.closed_trivial (m := (g.compiler id).model)
    (p := { graph := { g with forest := g.forest.wrap root }, diagnostics := (g.compiler id).diagnostics })
    (g.forest.wrap root).size ⟨g.forest.size⟩
  exact (made fun _ _ _ => trivial).alike

theorem init_of_not_pending (h : (g.compiler id).stage ≠ .pending) : g.init id = (.ok (), g) := by
  unfold init
  dsimp only
  rw [if_pos h]

theorem init_of_not_found (pending : (g.compiler id).stage = .pending)
    (absent : g.root? id = none) :
    g.init id = (.ok (), g.setCompiler id { g.compiler id with
      stage := .aborted
      diagnostics := (g.compiler id).diagnostics ++ [.rootNotFound (g.compiler id).selector] }) := by
  rw [root?] at absent
  unfold init
  dsimp only
  rw [if_neg (by simp [pending]), absent]

theorem init_of_found (pending : (g.compiler id).stage = .pending)
    (found : g.root? id = some root) :
    g.init id = match (g.compiled id root).2.graph.forest.append root ⟨g.forest.size⟩ with
      | .error e => (.error (.document e), (g.compiled id root).2.graph.setCompiler id { g.compiler id with
          watchers := (g.compiled id root).2.watchers
          diagnostics := (g.compiled id root).2.diagnostics })
      | .ok forest => ((g.compiled id root).1,
          setCompiler { (g.compiled id root).2.graph with forest := forest.retain root } id { g.compiler id with
            root := some root
            watchers := (g.compiled id root).2.watchers
            diagnostics := (g.compiled id root).2.diagnostics
            stage := .compiled }) := by
  rw [root?] at found
  unfold init
  dsimp only
  rw [if_neg (by simp [pending]), found]
  rfl

theorem linked_init (h : g.forest.Linked) (id : CompilerId) :
    (g.init id).2.forest.Linked ∧ (g.forest.Acyclic → (g.init id).2.forest.Acyclic) := by
  by_cases pending : (g.compiler id).stage = .pending
  · cases found : g.root? id with
    | none =>
      rw [init_of_not_found pending found]
      exact ⟨h, fun acyclic => acyclic⟩
    | some root =>
      have same := alike_compiled g id root
      have linked : (g.compiled id root).2.graph.forest.Linked := (h.wrap root).alike same
      have acyclic (free : g.forest.Acyclic) : (g.compiled id root).2.graph.forest.Acyclic :=
        (free.wrap h root).alike same
      have exist := Forest.exists_of_query? found
      have new : g.forest.size < (g.compiled id root).2.graph.forest.size := by
        simp [same.size]
      rw [init_of_found pending found]
      split
      · dsimp only [setCompiler]
        exact ⟨linked, acyclic⟩
      · next f' moved =>
        have kept := Forest.alike_retain f' root
        refine ⟨(linked.append (Nat.lt_trans exist new) new moved).alike kept, fun free => ?_⟩
        refine ((acyclic free).append linked new (fun _ below => ?_) moved).alike kept
        rw [same.below] at below
        exact free.not_below_wrap h root below
  · rw [init_of_not_pending pending]
    exact ⟨h, fun acyclic => acyclic⟩

theorem alike_release (g : Graph) (s : SubscriberId) : Alike g.forest (g.release s).forest := by
  unfold release
  dsimp only
  split
  · split
    · exact Forest.alike_release _ _
    · exact .refl _
  · exact .refl _

theorem alike_releases (ss : List SubscriberId) (g : Graph) : Alike g.forest (ss.foldl Graph.release g).forest := by
  induction ss generalizing g with
  | nil => exact .refl _
  | cons s ss ih => exact (alike_release g s).trans (ih _)

def Aimed (g : Graph) : Prop :=
  ∀ s w slot, g.watcher? s = some w → w.reaction.slot? = some slot → g.forest.takes slot

theorem Aimed.retain (aimed : Aimed g) (s : SubscriberId) : Aimed (g.retain s) := by
  intro t w slot hw target
  rw [Engine.watcher?_retain] at hw
  exact aimed t w slot hw target

theorem alike_foldl_release (ns : List NodeId) (f : Forest) : Alike f (ns.foldl Forest.release f) := by
  induction ns generalizing f with
  | nil => exact .refl _
  | cons n ns ih => exact (Forest.alike_release f n).trans (ih _)

end Graph

def Edit.Founded (f : Forest) : Edit → Prop
  | .createDocument trees => ∃ text, Markup.read text = .ok trees
  | .append p c => p.index < f.size ∧ c.index < f.size
  | .setText n _ => n.index < f.size
  | _ => True

def Edit.Apart (f : Forest) : Edit → Prop
  | .append p c => f.content c = .fragment → ¬ f.Below p c
  | _ => True

def Move.Founded (f : Forest) : Move → Prop
  | .edit change => change.Founded f
  | _ => True

def Move.Apart (f : Forest) : Move → Prop
  | .edit change => change.Apart f
  | _ => True

theorem linked_edit (h : f.Linked) {change : Edit} (founded : change.Founded f) :
    (change.apply f).Linked ∧ (f.Acyclic → change.Apart f → (change.apply f).Acyclic) := by
  have of_alike {f' : Forest} (same : Alike f f') : f'.Linked ∧ (f.Acyclic → change.Apart f → f'.Acyclic) :=
    ⟨h.alike same, fun acyclic _ => acyclic.alike same⟩
  cases change with
  | createDocument trees =>
    obtain ⟨text, parsed⟩ := founded
    obtain ⟨linked, acyclic⟩ := h.createDocument (Markup.sound_of_read parsed).1
    exact ⟨linked, fun free _ => acyclic free⟩
  | createElement tag => exact ⟨h.create _, fun acyclic _ => acyclic.create _⟩
  | createText content => exact ⟨h.create _, fun acyclic _ => acyclic.create _⟩
  | createFragment => exact ⟨h.create _, fun acyclic _ => acyclic.create _⟩
  | append p c =>
    simp only [Edit.apply]
    cases moved : f.append p c with
    | error err => exact of_alike (.refl f)
    | ok f' => exact ⟨h.append founded.1 founded.2 moved, fun acyclic apart => acyclic.append h founded.2 apart moved⟩
  | setAttribute n name value =>
    simp only [Edit.apply]
    cases filled : f.setAttribute n name value with
    | error err => exact of_alike (.refl f)
    | ok f' => exact of_alike (Forest.alike_setAttribute filled)
  | removeAttribute n name =>
    simp only [Edit.apply, Forest.removeAttribute_eq]
    exact of_alike (Forest.alike_without f n name)
  | setText n text =>
    simp only [Edit.apply]
    cases filled : f.setText n text with
    | error err => exact of_alike (.refl f)
    | ok f' =>
      obtain ⟨linked, acyclic⟩ := h.setText founded filled
      exact ⟨linked, fun free _ => acyclic free⟩
  | setValue n value =>
    simp only [Edit.apply]
    cases filled : f.setValue n value with
    | error err => exact of_alike (.refl f)
    | ok f' => exact of_alike (Forest.alike_setValue filled)
  | listen n event callback => exact of_alike (Forest.alike_listen f n event (.call callback))
  | retain n => exact of_alike (Forest.alike_retain f n)
  | release n => exact of_alike (Forest.alike_release f n)

namespace Engine

variable {e e' : Engine} {m : Move}

theorem alike_update (aimed : e.graph.Aimed) (s : SubscriberId) :
    Alike e.graph.forest (e.update s).graph.forest := by
  have updates := updates_update e s
  have evaluated (w : Watcher) := (Graph.enrolled_evaluate e.graph s w).forest
  generalize e.update s = e' at updates
  cases updates with
  | notified _ => exact .refl _
  | @same w _ _ =>
    rw [evaluated]
    exact .refl _
  | @called w _ _ _ _ =>
    rw [Graph.renew]
    exact (evaluated w).symm ▸ .refl _
  | filled watcher _ target fill => exact Forest.alike_fill (aimed _ _ _ watcher target) fill
  | @failed w _ _ _ _ _ _ =>
    rw [Graph.renew]
    exact (evaluated w).symm ▸ .refl _

theorem alike_steps (aimed : e.graph.Aimed) (steps : Steps e e') : Alike e.graph.forest e'.graph.forest := by
  cases steps with
  | @update g purpose running s pending failures frames alive =>
    exact alike_update (e := ⟨g.retain s, .pass purpose (some s) pending failures :: frames, .next⟩)
      (aimed.retain s) s
  | hear =>
    rw [forest_hear]
    exact .refl _
  | delivery => exact Forest.alike_release _ _
  | run => exact Graph.alike_release _ _
  | @acceptPass _ _ running _ _ _ _ =>
    cases running with
    | none => exact .refl _
    | some s => exact Graph.alike_release _ s
  | acceptRun => exact Graph.alike_release _ _
  | _ => exact .refl _

theorem alike_perform (aimed : e.graph.Aimed) (allowed : e.Allows m) (unedited : ∀ change, m ≠ .edit change)
    (started : ∀ c, m ≠ .init c) : Alike e.graph.forest (e.perform m).graph.forest := by
  cases m with
  | step => exact alike_steps aimed (steps_of_allows allowed)
  | writePath s path v =>
    simp only [perform, writePath]
    cases e.graph.walk? s path.parents <;> exact .refl _
  | notify r => cases r <;> exact .refl _
  | run s => exact alike_update (e := ⟨e.graph.retain s, .run s :: e.frames, e.turn⟩) (aimed.retain s) s
  | call m name event =>
    simp only [perform, call]
    cases (e.graph.model m).methods.get? name <;> exact .refl _
  | dispatch n event => exact Forest.alike_retain _ _
  | input n text =>
    simp only [perform, input]
    cases filled : e.graph.forest.setValue n text with
    | error err => exact .refl _
    | ok f => exact (Forest.alike_setValue filled).trans (Forest.alike_retain _ _)
  | readPath reader s path =>
    rw [perform, (Graph.enrolled_readPath e.graph reader s path).forest]
    exact .refl _
  | register r s =>
    rw [perform, (Graph.enrolled_register e.graph r s).forest]
    exact .refl _
  | createWatcher m path callback => exact alike_createWatcher e.graph m path (.call callback)
  | release s => exact Graph.alike_release _ s
  | createCompiler document selector m => exact Forest.alike_retain _ _
  | init c => exact absurd rfl (started c)
  | dropCompiler c =>
    have dropped := Graph.alike_releases (e.graph.compiler c).watchers
      (e.graph.setCompiler c { e.graph.compiler c with dropped := true })
    exact dropped.trans (Graph.alike_foldl_release (_ :: _) _)
  | edit change => exact absurd rfl (unedited change)
  | _ => exact .refl _

theorem linked_perform (aimed : e.graph.Aimed) (h : e.graph.forest.Linked) (allowed : e.Allows m)
    (founded : m.Founded e.graph.forest) : (e.perform m).graph.forest.Linked ∧
      (e.graph.forest.Acyclic → m.Apart e.graph.forest → (e.perform m).graph.forest.Acyclic) := by
  have of_alike (same : Alike e.graph.forest (e.perform m).graph.forest) : (e.perform m).graph.forest.Linked ∧
      (e.graph.forest.Acyclic → m.Apart e.graph.forest → (e.perform m).graph.forest.Acyclic) :=
    ⟨h.alike same, fun acyclic _ => acyclic.alike same⟩
  cases m with
  | init c =>
    obtain ⟨linked, acyclic⟩ := Graph.linked_init h c
    exact ⟨linked, fun free _ => acyclic free⟩
  | edit change => exact linked_edit h founded
  | _ => exact of_alike (alike_perform aimed allowed (fun _ => nofun) fun _ => nofun)

end Engine

def History.Founded (h : History) : Prop := ∀ x ∈ h, x.2.Founded x.1.graph.forest

def History.Apart (h : History) : Prop := ∀ x ∈ h, x.2.Apart x.1.graph.forest

def Move.isProper (f : Forest) : Move → Bool
  | .edit (.createDocument _) => false
  | .edit (.append p c) => p.index < f.size && c.index < f.size &&
    ((f.content c).kind ≠ "fragment" || (f.line f.size p).length < f.size && c ∉ f.line f.size p)
  | .edit (.setText n _) => n.index < f.size
  | _ => true

theorem Move.proper_of_isProper {m : Move} (h : m.isProper f = true) : m.Founded f ∧ m.Apart f := by
  cases m with
  | edit change =>
    cases change with
    | createDocument trees => cases h
    | append p c =>
      simp only [isProper, Bool.and_eq_true, Bool.or_eq_true, decide_eq_true_eq] at h
      obtain ⟨⟨exist, exist'⟩, apart⟩ := h
      refine ⟨⟨exist, exist'⟩, fun fragment below => ?_⟩
      rcases apart with other | ⟨short, absent⟩
      · exact other ((Forest.eq_fragment_iff _).1 fragment)
      · exact absent (Forest.mem_line_of_below short below)
    | setText n text =>
      have exist : n.index < f.size := by simpa only [isProper, decide_eq_true_eq] using h
      exact ⟨exist, trivial⟩
    | _ => exact ⟨trivial, trivial⟩
  | _ => exact ⟨trivial, trivial⟩

structure Scene where
  before : List Move
  markup : String
  later : List Move

namespace Scene

variable (s : Scene)

def trees : List Markup.Tree := (Markup.read s.markup).toOption.getD []

def begun : Engine := Engine.after {} s.before

def opened : Engine := s.begun.perform (.edit (.createDocument s.trees))

def ended : Engine := s.opened.after s.later

def history : History :=
  s.opened.trace s.later ++ (s.begun, .edit (.createDocument s.trees)) :: Engine.trace {} s.before

def plays : Bool :=
  (Markup.read s.markup).toOption.isSome && Engine.admits {} s.before &&
    s.begun.Allows (.edit (.createDocument s.trees)) && s.opened.admits s.later &&
    (s.opened.trace s.later ++ Engine.trace {} s.before).all fun x => x.2.isProper x.1.graph.forest

variable {s} (plays : s.plays = true)
include plays

theorem run : Run s.history s.ended := by
  simp only [Scene.plays, Bool.and_eq_true, decide_eq_true_eq] at plays
  obtain ⟨⟨⟨⟨-, begun⟩, allowed⟩, later⟩, -⟩ := plays
  exact Run.after ((Run.of_admits begun).move allowed) s.later later

theorem proper : s.history.Founded ∧ s.history.Apart := by
  simp only [Scene.plays, Bool.and_eq_true, List.all_eq_true] at plays
  obtain ⟨⟨⟨⟨found, -⟩, -⟩, -⟩, moves⟩ := plays
  have parsed : Markup.read s.markup = .ok s.trees := by
    unfold trees
    cases read : Markup.read s.markup with
    | ok trees => rfl
    | error e =>
      rw [read] at found
      cases found
  have all : ∀ x ∈ s.history, x.2.Founded x.1.graph.forest ∧ x.2.Apart x.1.graph.forest := by
    intro x mem
    rcases List.mem_append.1 mem with mem | mem
    · exact Move.proper_of_isProper (moves x (List.mem_append_left _ mem))
    · rcases List.mem_cons.1 mem with rfl | mem
      · exact ⟨⟨s.markup, parsed⟩, trivial⟩
      · exact Move.proper_of_isProper (moves x (List.mem_append_right _ mem))
  exact ⟨fun x mem => (all x mem).1, fun x mem => (all x mem).2⟩

end Scene

namespace Run

variable {h : History} {e : Engine}

theorem linked (run : Run h e) (founded : h.Founded) :
    e.graph.forest.Linked ∧ (h.Apart → e.graph.forest.Acyclic) := by
  induction run with
  | start => exact ⟨Forest.linked_empty, fun _ => Forest.acyclic_empty⟩
  | move run allowed ih =>
    obtain ⟨linked, acyclic⟩ := ih fun x hx => founded x (List.mem_cons_of_mem _ hx)
    obtain ⟨linked', acyclic'⟩ := Engine.linked_perform (fun _ _ _ hw target => (run.orderly.aimed hw target).1) linked
      allowed (founded _ List.mem_cons_self)
    refine ⟨linked', fun apart => acyclic' (acyclic fun x hx => ?_) (apart _ List.mem_cons_self)⟩
    exact apart x (List.mem_cons_of_mem _ hx)

/-- In every state a node that is kept has another one among its children, once, if and only if it is the parent of
that one. No node is among the children of two, and none is below itself, so the walk from a node to its ancestors
ends, and it meets just those that the node is below. Only elements and texts have parents, and texts and void
elements have no children. -/
theorem links_agree (run : Run h e) (founded : h.Founded) (apart : h.Apart) :
    (∀ p c, e.graph.forest.kept p = true →
        ((e.graph.forest.children p).count c = 1 ↔ e.graph.forest.parent? c = some p)) ∧
      (∀ p c, (e.graph.forest.children p).count c ≤ 1) ∧
      (∀ p q c, c ∈ e.graph.forest.children p → c ∈ e.graph.forest.children q → p = q) ∧
      (∀ n, ¬ e.graph.forest.Below n n) ∧
      (∀ a n, e.graph.forest.isAncestor a n = true ↔ e.graph.forest.Below n a) ∧
      (∀ c p, e.graph.forest.Under c p →
        (e.graph.forest.content c).isElement = true ∨ (e.graph.forest.content c).isText = true) ∧
      ∀ n, (e.graph.forest.content n).takesChildren = false → e.graph.forest.children n = [] := by
  obtain ⟨linked, acyclic⟩ := run.linked founded
  have acyclic := acyclic apart
  generalize e.graph.forest = f at linked acyclic ⊢
  have once (p c : NodeId) : (f.children p).count c ≤ 1 := List.nodup_iff_count_le_one.1 (linked.once p) c
  refine ⟨?_, once, ?_, acyclic, fun a n => linked.isAncestor_iff (acyclic.straight n), fun c p => linked.placed,
    fun n => linked.solid⟩
  · intro p c kept
    have listed : (f.children p).count c = 1 ↔ c ∈ f.children p := by
      rw [← List.count_pos_iff]
      have := once p c
      omega
    rw [listed, linked.agree, Forest.Under, Forest.parent?, Option.filter_eq_some_iff]
    exact ⟨fun under => ⟨under, kept⟩, And.left⟩
  · intro p q c hp hq
    exact Option.some.inj ((linked.agree.1 hp).symm.trans (linked.agree.1 hq))

def preparing : List Move :=
  [.createStore [("a", .string "x")],
    .createModel { data := ⟨0⟩, methods := [], options := { strictDirectives := true } }]

/-- A compilation fails deep in a document. Then a parent and its child change places by way of a fragment, which goes
back, and a text takes the place of another one. -/
def swapping : Scene where
  before := preparing
  markup := "<div><p><b>\x7b\x7b \x7d\x7d</b>x</p></div>"
  later :=
    [.createCompiler ⟨0⟩ "div" ⟨0⟩, .init ⟨0⟩, .edit .createFragment, .edit (.append ⟨7⟩ ⟨3⟩), .edit (.append ⟨3⟩ ⟨2⟩),
      .edit (.append ⟨2⟩ ⟨3⟩), .edit (.append ⟨1⟩ ⟨7⟩), .edit (.setText ⟨2⟩ "y")]

def swapped : Forest := swapping.ended.graph.forest

theorem swapped_links_agree :
    ((swapped.children ⟨3⟩).count ⟨2⟩ = 1 ↔ swapped.parent? ⟨2⟩ = some ⟨3⟩) ∧ swapped.isAncestor ⟨3⟩ ⟨2⟩ = true ∧
      ¬ swapped.Below ⟨2⟩ ⟨2⟩ ∧ swapped.children ⟨3⟩ = [⟨4⟩, ⟨2⟩] ∧ swapped.children ⟨7⟩ = [] := by
  have plays : swapping.plays = true := by decide +kernel
  obtain ⟨founded, apart⟩ := Scene.proper plays
  obtain ⟨children, -, -, acyclic, -⟩ := links_agree (Scene.run plays) founded apart
  exact ⟨children _ _ (by decide +kernel), by decide +kernel, acyclic _, by decide +kernel, by decide +kernel⟩

end Run

end DataBinding
