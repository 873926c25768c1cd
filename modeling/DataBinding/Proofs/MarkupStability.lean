import DataBinding.Proofs.DocumentFrame
import DataBinding.Proofs.TidyNodes

namespace DataBinding

open DataBinding.Forest (Tidy Between)
open DataBinding.Forest.Tidy (Wanted)

variable {D : NodeId → Prop} {g g' : Graph} {m : ModelId} {n : NodeId} {slot : Slot}

theorem suffix_of_argument? {name a : String} {marks : List String} (h : Directive.argument? name marks = some a) :
    a.toList <:+ name.toList := by
  obtain ⟨rest, found, rfl⟩ := Option.map_eq_some_iff.1 h
  obtain ⟨mark, -, after⟩ := List.exists_of_findSome?_eq_some found
  rw [Text.after?_eq_some_iff.1 after, String.toList_ofList]
  exact List.suffix_append _ _

theorem suffix_of_bind {legacy : Bool} {name a : String} (h : Directive.ofName? legacy name = some (.bind a)) :
    a.isEmpty = false ∧ a.toList <:+ name.toList := by
  unfold Directive.ofName? at h
  split at h
  · cases h
  split at h
  · split at h <;> cases h
  · split at h
    · next b found =>
      split at h
      · cases h
      · next filled =>
        cases h
        exact ⟨by simpa using filled, suffix_of_argument? found⟩
    · cases h

theorem closed_wanted (D : NodeId → Prop) : Compilation.Closed (Wanted D) := by
  intro n legacy name a wanted found hn
  obtain ⟨filled, suffix⟩ := suffix_of_bind found
  have readable := wanted hn
  simp only [Markup.isAttributeName, Bool.and_eq_true, Bool.not_eq_true', List.all_eq_true] at readable ⊢
  exact ⟨filled, fun c hc => readable.2 c (suffix.subset hc)⟩

structure Graph.Orderly (D : NodeId → Prop) (g : Graph) : Prop where
  tidy : Tidy D g.forest
  aimed : ∀ {s w slot}, g.watcher? s = some w → w.reaction.slot? = some slot →
    g.forest.takes slot ∧ slot.Named (Wanted D)

open DataBinding.Graph (Orderly)

theorem tidy_createWatcher (g : Graph) (m : ModelId) (path : Path) (reaction : Reaction) (h : Tidy D g.forest) :
    Tidy D (g.createWatcher m path reaction).2.forest := by
  rw [(Graph.gains_createWatcher g m path reaction).forest]
  split
  · exact h.retain
  · exact h

theorem orderly_piece (h : Piece m (Wanted D) g g') (orderly : Orderly D g) : Orderly D g' where
  tidy := by
    cases h with
    | createRecord v => exact orderly.tidy
    | setRecord r v => exact orderly.tidy
    | watch path target takes named => exact tidy_createWatcher _ _ _ _ orderly.tidy
    | fill text takes named => exact orderly.tidy.put text named
    | listen n event listener => exact orderly.tidy.listen
    | strip n name => exact orderly.tidy.strip name
  aimed {s w slot} hw target := by
    rw [h.takes]
    cases h with
    | watch path aim takes named =>
      have gains := Graph.gains_createWatcher g m path ‹_›
      by_cases new : g.subscribers.size ≤ s.index
      · obtain ⟨-, rfl⟩ := gains.eq_of_watcher? new hw
        cases aim.symm.trans target
        exact ⟨takes, named⟩
      · have other := gains.others s (gains.ne_of_lt (Nat.lt_of_not_le new))
        rw [Graph.watcher?, other] at hw
        exact orderly.aimed hw target
    | _ => exact orderly.aimed hw target

theorem fragment_setContent {f : Forest} {n m : NodeId} {c : Content} (new : f.content n = .fragment → c = .fragment)
    (h : f.content m = .fragment) : (f.setContent n c).content m = .fragment := by
  rw [Forest.content_setContent]
  split
  · next here => exact new (here.1 ▸ h)
  · exact h

theorem links_piece {names : NodeId → String → Prop} (h : Piece m names g g') (n : NodeId) :
    g'.forest.children n = g.forest.children n ∧
      (g.forest.content n = .fragment → g'.forest.content n = .fragment) := by
  cases h with
  | createRecord v => exact ⟨rfl, id⟩
  | setRecord r v => exact ⟨rfl, id⟩
  | watch path target takes named =>
    have gains := Graph.gains_createWatcher g m path ‹_›
    refine ⟨?_, fun h => (gains.keeps.content n).trans h⟩
    rw [gains.forest]
    split
    · rw [Forest.retain, Forest.children_modify]
      split <;> rfl
    · rfl
  | @fill slot text takes named =>
    refine ⟨Forest.children_setContent _ _ _ _, fragment_setContent fun h => ?_⟩
    rw [h]
    cases slot <;> rfl
  | listen k event listener =>
    refine ⟨?_, fun h => (Forest.content_listen _ _ _ _ _).trans h⟩
    rw [Forest.listen, Forest.children_modify]
    split <;> rfl
  | strip k name =>
    refine ⟨Forest.children_setContent _ _ _ _, fragment_setContent fun h => ?_⟩
    rw [h]
    rfl

theorem orderly_pieces (h : Pieces m (Wanted D) g g') (orderly : Orderly D g) :
    Orderly D g' ∧ ∀ n, g'.forest.children n = g.forest.children n ∧
      (g.forest.content n = .fragment → g'.forest.content n = .fragment) := by
  induction h with
  | nil => exact ⟨orderly, fun _ => ⟨rfl, id⟩⟩
  | snoc _ piece ih =>
    refine ⟨orderly_piece piece ih.1, fun n => ?_⟩
    obtain ⟨children, fragment⟩ := links_piece piece n
    exact ⟨children.trans (ih.2 n).1, fun h => fragment ((ih.2 n).2 h)⟩

theorem Graph.Orderly.of_keeps {f : Forest} {compilers : Table Compiler} (h : Orderly D g) (tidy : Tidy D f)
    (keeps : ∀ slot, f.takes slot = g.forest.takes slot) : Orderly D { g with forest := f, compilers } where
  tidy := tidy
  aimed hw target := by
    rw [keeps]
    exact h.aimed hw target

theorem orderly_init (h : Orderly D g) (id : CompilerId) : Orderly D (g.init id).2 := by
  rcases Graph.init_cases (closed_wanted D) g id with ⟨d, same⟩ | ⟨root, g', f, d, compiled, ended, same⟩
  · rw [same]
    exact h.of_keeps h.tidy fun _ => rfl
  · have absent : g.forest.node ⟨g.forest.size⟩ = { content := .fragment } :=
      Forest.node_of_size_le (Nat.le_refl _)
    have fresh : ¬ D ⟨g.forest.size⟩ := fun hn => Nat.lt_irrefl _ (h.tidy.exist hn)
    have wrapped : Tidy D (g.forest.wrap root) := h.tidy.create.adoptAll fun hn => absurd hn fresh
    have keeps := Forest.keeps_adoptAll (g.forest.create .fragment).2 ⟨g.forest.size⟩
      ((g.forest.create .fragment).2.children root)
    have content (n : NodeId) : (g.forest.wrap root).content n = g.forest.content n :=
      (keeps.content n).trans (Forest.content_createFragment g.forest n)
    have start : Orderly D { g with forest := g.forest.wrap root } :=
      h.of_keeps wrapped fun slot => by rw [Forest.takes, content, Forest.takes]
    obtain ⟨orderly, links⟩ := orderly_pieces (compiled wrapped.named) start
    rw [same]
    rcases ended with rfl | ⟨f', moved, rfl⟩
    · exact orderly.of_keeps orderly.tidy fun _ => rfl
    · obtain ⟨children, fragment⟩ := links ⟨g.forest.size⟩
      have tidy : Tidy D f' := by
        refine orderly.tidy.append (fun hroot => ⟨?_, ?_⟩) moved
        · intro n hn
          rw [children] at hn
          rcases Forest.mem_children_adoptAll hn with old | ⟨-, new⟩
          · rw [Forest.children_create, Forest.children, absent] at old
            cases old
          · rw [Forest.children_create] at new
            exact h.tidy.below hroot n new
        · intro other
          apply absurd (fragment _) other
          rw [content, Forest.content, absent]
      have kept := (Forest.keeps_append moved).trans (Forest.keeps_retain f' root)
      exact orderly.of_keeps tidy.retain kept.takes

/-- The nodes that an edit changes. What an input holds is no part of its markup. -/
def Edit.altered : Edit → List NodeId
  | .append p c => [p, c]
  | .setAttribute n _ _ | .removeAttribute n _ | .setText n _ => [n]
  | _ => []

def Move.altered : Move → List NodeId
  | .edit change => change.altered
  | _ => []

theorem tidy_edit {f : Forest} (h : Tidy D f) {change : Edit} (spared : ∀ n ∈ change.altered, ¬ D n) :
    Tidy D (change.apply f) := by
  cases change with
  | createDocument trees => exact h.beside (Forest.beside_createDocument f trees)
  | createElement tag => exact h.create
  | createText content => exact h.create
  | createFragment => exact h.create
  | append p c =>
    simp only [Edit.apply]
    cases moved : f.append p c with
    | error err => exact h
    | ok f' => exact h.append (fun hp => absurd hp (spared p List.mem_cons_self)) moved
  | setAttribute n name value =>
    have other := spared n List.mem_cons_self
    simp only [Edit.apply]
    cases filled : f.setAttribute n name value with
    | error err => exact h
    | ok f' =>
      have fits : D (Slot.attr n name).node → f.takes (.attr n name) ∧ (Slot.attr n name).Named (Wanted D) :=
        fun hn => absurd hn other
      exact h.fill fits filled
  | removeAttribute n name =>
    simp only [Edit.apply, Forest.removeAttribute_eq]
    exact h.strip name
  | setText n text =>
    simp only [Edit.apply]
    cases filled : f.setText n text with
    | error err => exact h
    | ok f' => exact h.setText (spared n List.mem_cons_self) filled
  | setValue n value =>
    simp only [Edit.apply]
    cases filled : f.setValue n value with
    | error err => exact h
    | ok f' => exact h.setValue filled
  | listen n event callback => exact h.listen
  | retain n => exact h.retain
  | release n => exact h.release

theorem tidy_release (h : Tidy D g.forest) (s : SubscriberId) : Tidy D (g.release s).forest := by
  unfold Graph.release
  dsimp only
  split
  · split
    · exact h.release
    · exact h
  · exact h

theorem tidy_releases (ss : List SubscriberId) (h : Tidy D g.forest) :
    Tidy D (ss.foldl Graph.release g).forest := by
  induction ss generalizing g with
  | nil => exact h
  | cons s ss ih => exact ih (tidy_release h s)

theorem tidy_foldl_release {f : Forest} (ns : List NodeId) (h : Tidy D f) : Tidy D (ns.foldl Forest.release f) := by
  induction ns generalizing f with
  | nil => exact h
  | cons n ns ih => exact ih h.release

namespace Engine

variable {e e' : Engine} {m : Move}

theorem tidy_update (h : Orderly D e.graph) (s : SubscriberId) : Tidy D (e.update s).graph.forest := by
  have updates := updates_update e s
  have evaluated (w : Watcher) := (Graph.enrolled_evaluate e.graph s w).forest
  generalize e.update s = e' at updates
  cases updates with
  | notified _ => exact h.tidy
  | @same w _ _ =>
    rw [evaluated]
    exact h.tidy
  | @called w _ _ _ _ =>
    rw [Graph.renew]
    exact (evaluated w).symm ▸ h.tidy
  | filled watcher _ target fill => exact h.tidy.fill (fun _ => h.aimed watcher target) fill
  | @failed w _ _ _ _ _ _ =>
    rw [Graph.renew]
    exact (evaluated w).symm ▸ h.tidy

@[simp] theorem forest_hear (e : Engine) (event : Event) (listener : Listener) :
    (e.hear event listener).graph.forest = e.graph.forest := by
  rcases hear_cases e event listener with ⟨⟨turn, h⟩, -⟩
    | ⟨m, path, r, text, -, -, -, ⟨-, -, h⟩ | ⟨t, -, -, h⟩⟩
  · rw [h]
  · rw [h]
    rfl
  · rw [h]
    rfl

theorem orderly_retain (h : Orderly D g) (s : SubscriberId) : Orderly D (g.retain s) where
  tidy := h.tidy
  aimed hw := h.aimed (by rwa [watcher?_retain] at hw)

theorem tidy_steps (h : Orderly D e.graph) (steps : Steps e e') : Tidy D e'.graph.forest := by
  cases steps with
  | update alive => exact tidy_update (orderly_retain h _) _
  | hear =>
    simpa using h.tidy
  | delivery => exact h.tidy.release
  | run => exact tidy_release h.tidy _
  | @acceptPass _ _ running _ _ _ _ =>
    cases running with
    | none => exact h.tidy
    | some s => exact tidy_release h.tidy s
  | acceptRun => exact tidy_release h.tidy _
  | _ => exact h.tidy

theorem tidy_perform (h : Orderly D e.graph) (allowed : e.Allows m) (spared : ∀ n ∈ m.altered, ¬ D n) :
    Tidy D (e.perform m).graph.forest := by
  cases m with
  | step => exact tidy_steps h (steps_of_allows allowed)
  | writePath s path v =>
    simp only [perform, writePath]
    cases e.graph.walk? s path.parents <;> exact h.tidy
  | notify r => cases r <;> exact h.tidy
  | run s => exact tidy_update (e := ⟨e.graph.retain s, .run s :: e.frames, e.turn⟩) (orderly_retain h s) s
  | call m name event =>
    simp only [perform, call]
    cases (e.graph.model m).methods.get? name <;> exact h.tidy
  | dispatch n event => exact h.tidy.retain
  | input n text =>
    simp only [perform, input]
    cases filled : e.graph.forest.setValue n text with
    | error err => exact h.tidy
    | ok f => exact (h.tidy.setValue filled).retain
  | readPath reader s path =>
    rw [perform, (Graph.enrolled_readPath e.graph reader s path).forest]
    exact h.tidy
  | register r s =>
    rw [perform, (Graph.enrolled_register e.graph r s).forest]
    exact h.tidy
  | createWatcher m path callback => exact tidy_createWatcher e.graph m path (.call callback) h.tidy
  | release s => exact tidy_release h.tidy s
  | createCompiler document selector m => exact h.tidy.retain
  | init c => exact (orderly_init h c).tidy
  | dropCompiler c =>
    have dropped := tidy_releases (g := e.graph.setCompiler c { e.graph.compiler c with dropped := true })
      (e.graph.compiler c).watchers h.tidy
    exact tidy_foldl_release (_ :: _) dropped
  | edit change => exact tidy_edit h.tidy spared
  | _ => exact h.tidy

theorem aimed_perform (wf : e.WellFormed) (h : Orderly D e.graph) (allowed : e.Allows m)
    (started : ∀ c, m ≠ .init c) {s : SubscriberId} {w : Watcher} {slot : Slot}
    (hw : (e.perform m).graph.watcher? s = some w) (target : w.reaction.slot? = some slot) :
    (e.perform m).graph.forest.takes slot ∧ slot.Named (Wanted D) := by
  rcases (changes_perform wf allowed).watched hw with ⟨w₀, hw₀, same⟩ | ⟨new, -⟩
  · rw [same] at target
    obtain ⟨takes, named⟩ := h.aimed hw₀ target
    rw [(leaves_perform allowed started).takes (Forest.exists_of_takes takes)]
    exact ⟨takes, named⟩
  · have exist := Graph.exists_of_watcher? hw
    rcases size_perform allowed with size | ⟨identity, callback, rfl⟩ | ⟨m, path, callback, rfl⟩ | ⟨c, rfl⟩
    · omega
    · exact absurd (Graph.exists_of_watcher? (Graph.watcher?_of_createSubscriber hw)) (Nat.not_lt_of_le new)
    · obtain ⟨-, rfl⟩ := (Graph.gains_createWatcher e.graph m path (.call callback)).eq_of_watcher? new hw
      cases target
    · exact absurd rfl (started c)

theorem orderly_perform (wf : e.WellFormed) (h : Orderly D e.graph) (allowed : e.Allows m)
    (spared : ∀ n ∈ m.altered, ¬ D n) : Orderly D (e.perform m).graph := by
  by_cases started : ∃ c, m = .init c
  · obtain ⟨c, rfl⟩ := started
    exact orderly_init h c
  · exact ⟨tidy_perform h allowed spared,
      aimed_perform wf h allowed fun c same => started ⟨c, same⟩⟩

end Engine

namespace Run

variable {h h₁ h₀ : History} {e e₀ : Engine} {trees : List Markup.Tree} {text : String}

theorem orderly (run : Run h e) : Orderly (fun _ => False) e.graph := by
  induction run with
  | start => exact ⟨⟨nofun, nofun, nofun, nofun⟩, fun hw => absurd (Graph.exists_of_watcher? hw) (Nat.not_lt_zero _)⟩
  | move run allowed ih => exact Engine.orderly_perform run.wellFormed ih allowed fun _ _ => nofun

theorem orderly_since (run : Run (h₁ ++ (e₀, .edit (.createDocument trees)) :: h₀) e)
    (sound : Markup.SoundAll trees)
    (spared : ∀ x ∈ h₁, ∀ n ∈ x.2.altered,
      ¬ Between e₀.graph.forest.size (e₀.graph.forest.createDocument trees).2.size n) :
    Orderly (Between e₀.graph.forest.size (e₀.graph.forest.createDocument trees).2.size) e.graph := by
  obtain ⟨run₀, -, run₁⟩ := run.of_move
  refine run₁.along (P := fun _ e => Orderly _ e.graph) run ?start ?move
  case start =>
    refine ⟨Tidy.createDocument e₀.graph.forest sound, fun {s w slot} hw target => ⟨?_, ?_⟩⟩
    · exact (run₁.orderly.aimed hw target).1
    · -- watchers of old fill slots of nodes that were there before
      have exist := Forest.exists_of_takes (run₀.orderly.aimed hw target).1
      cases slot with
      | attr n name => exact fun within => absurd exist (Nat.not_lt_of_le within.1)
      | _ => trivial
  case move =>
    intro h e m part earlier allowed before
    exact Engine.orderly_perform earlier.wellFormed before allowed (spared _ (part.subset List.mem_cons_self))

/-- Trees that were read from a text have names that can be read again, no empty texts and nothing in void elements.
So they are read again as they were written, except that texts are joined which only comments have kept apart, and
are written again in the same way. A document of such trees can be written and read again at any time, if nothing but
bindings has changed it. -/
theorem markup_stable (parsed : Markup.read text = .ok trees) :
    (Markup.SoundAll trees ∧ Markup.FilledAll trees) ∧
      (Markup.read (String.ofList (Markup.renderAll trees)) = .ok (Markup.mergedAll trees) ∧
        Markup.renderAll (Markup.mergedAll trees) = Markup.renderAll trees) ∧
      ((∀ a b, ¬ [.text a, .text b] <:+: (Markup.tokens text.toList).1) ∧
        ∃ n, Markup.ofTokens .empty (Markup.joinTexts "" (Markup.tokens text.toList).1) = .ok n ∧
          Markup.Nesting.finish n.opened n.children = Markup.mergedAll trees) ∧
      (∀ f root f', Forest.createDocument f trees = (root, f') →
        f'.innerMarkup root = String.ofList (Markup.renderAll trees)) ∧
      ∀ h₁ h₀ e₀ e, Run (h₁ ++ (e₀, .edit (.createDocument trees)) :: h₀) e →
        (∀ x ∈ h₁, ∀ n ∈ x.2.altered,
          ¬ Between e₀.graph.forest.size (e₀.graph.forest.createDocument trees).2.size n) →
        e.graph.forest.Stable ⟨e₀.graph.forest.size⟩ := by
  obtain ⟨sound, filled⟩ := Markup.sound_of_read parsed
  refine ⟨⟨sound, filled⟩, ⟨Markup.read_renderAll sound, Markup.renderAll_mergedAll trees⟩,
    ⟨Markup.not_infix_tokens _, Markup.ofTokens_of_read parsed⟩, ?_, ?_⟩
  · exact fun f root f' => Forest.innerMarkup_createDocument
  · intro h₁ h₀ e₀ e run spared
    exact (run.orderly_since sound spared).tidy.stable (Forest.between_createDocument rfl)

def loose : String := "<DIV><P :title=name <b=1>a<!-- b -->{{ name }}<BR>1 < 2"

def looseTrees : List Markup.Tree := (Markup.read loose).toOption.getD []

def readying : List Move :=
  [.createStore [("name", .string "x")], .createModel { data := ⟨0⟩, methods := [], options := {} }]

def marking : List Move :=
  [.createCompiler ⟨0⟩ "div" ⟨0⟩, .init ⟨0⟩, .write ⟨0⟩ "name" (.string "<p \"a=b\">"), .step, .step, .step, .step,
    .step]

theorem read_loose : Markup.read loose = .ok looseTrees := by
  have found : (Markup.read loose).toOption.isSome = true := by decide +kernel
  unfold looseTrees
  cases h : Markup.read loose with
  | ok trees => rfl
  | error e => rw [h] at found; cases found

def readied : Engine := Engine.after {} readying

def bare : Engine := readied.perform (.edit (.createDocument looseTrees))

def marked : Engine := bare.after marking

theorem marked_markup_stable :
    Markup.read loose = .ok looseTrees ∧ marked.graph.forest.Stable ⟨0⟩ ∧
      marked.graph.forest.innerMarkup ⟨0⟩ =
        "<div><p <b=\"1\" title=\"&lt;p &quot;a=b&quot;&gt;\">a&lt;p \"a=b\"&gt;<br>1 &lt; 2</p></div>" := by
  have begun : Run (Engine.trace {} readying) readied := Run.of_admits (by decide +kernel)
  have allowed : readied.Allows (.edit (.createDocument looseTrees)) := by decide +kernel
  have parsed : Run ((readied, .edit (.createDocument looseTrees)) :: Engine.trace {} readying) bare :=
    begun.move allowed
  have run : Run (bare.trace marking ++ (readied, .edit (.createDocument looseTrees)) :: Engine.trace {} readying)
      marked :=
    parsed.after marking (by decide +kernel)
  have spared : ∀ x ∈ bare.trace marking, ∀ n ∈ x.2.altered, ¬ Between readied.graph.forest.size
      (readied.graph.forest.createDocument looseTrees).2.size n := by decide +kernel
  have stable := (markup_stable read_loose).2.2.2.2 _ _ _ _ run spared
  rw [show readied.graph.forest.size = 0 by decide +kernel] at stable
  exact ⟨read_loose, stable, by decide +kernel⟩

end Run

end DataBinding
