import DataBinding.Proofs.CompilationSites
import DataBinding.Proofs.GraphLocality
import DataBinding.Proofs.ParentChildLinks

namespace DataBinding

variable {S : Share} {b : Graph} {m : ModelId} {n : NodeId} {p : Progress}

namespace Progress

def splice (S : Share) (p : Progress) (b : Graph) : Progress := { p with graph := p.graph.splice S b }

structure Closed (S : Share) (p : Progress) : Prop where
  graph : p.graph.Closed S
  watchers : ∀ s ∈ p.watchers, S.Has p.graph .subscriber s.index

end Progress

namespace Compilation

variable {α β : Type} {x x' : Compilation α}

/-- A piece of compilation stays on a side, and the same is made of a splice by another piece. -/
structure Mounts (S : Share) (b : Graph) (p : Progress) (x x' : Compilation α) : Prop where
  closed : (x.run.run p).2.Closed S
  larger : p.graph.Larger (x.run.run p).2.graph
  same : x'.run.run (p.splice S b) = ((x.run.run p).1, (x.run.run p).2.splice S b)

namespace Mounts

theorem of_run {q : Except Error α × Progress} (run : x.run.run p = q) (closed : q.2.Closed S)
    (larger : p.graph.Larger q.2.graph) (run' : x'.run.run (p.splice S b) = (q.1, q.2.splice S b)) :
    Mounts S b p x x' := by
  subst run
  exact ⟨closed, larger, run'⟩

theorem of_note (closed : p.Closed S) {r : Except Error α} (d? : Option Diagnostic) (run : x.run.run p = (r, p.note d?))
    (run' : x'.run.run (p.splice S b) = (r, (p.splice S b).note d?)) : Mounts S b p x x' :=
  .of_run run ⟨closed.graph, closed.watchers⟩ (.refl _) run'

theorem of_local (closed : p.Closed S) {r : Except Error α} {op : Graph → Graph} (h : Graph.Local S op p.graph)
    (run : x.run.run p = (r, { p with graph := op p.graph }))
    (run' : x'.run.run (p.splice S b) = (r, { p with graph := op (p.graph.splice S b) })) :
    Mounts S b p x x' := by
  refine .of_run run ⟨h.closed, fun s mem => (closed.watchers s mem).mono h.larger⟩ h.larger ?_
  rw [run', h.splice]
  rfl

theorem of_same (closed : p.Closed S) (r : Except Error α) (run : x.run.run p = (r, p))
    (run' : x'.run.run (p.splice S b) = (r, p.splice S b)) : Mounts S b p x x' :=
  .of_local closed (.id closed.graph) run run'

theorem pure (closed : p.Closed S) (a : α) : Mounts S b p (pure a) (pure a) :=
  of_same closed (.ok a) rfl rfl

theorem bind (h : Mounts S b p x x') {next next' : α → Compilation β}
    (h' : ∀ a q, x.run.run p = (.ok a, q) → q.Closed S → p.graph.Larger q.graph → Mounts S b q (next a) (next' a)) :
    Mounts S b p (x >>= next) (x' >>= next') := by
  obtain ⟨closed, larger, same⟩ := h
  generalize run : x.run.run p = result at closed larger same
  obtain ⟨a | a, q⟩ := result
  · have run : (x >>= next).run.run p = (.error a, q) := by rw [run_bind, run]
    refine .of_run run closed larger ?_
    rw [run_bind, same]
  · have after := h' a q run closed larger
    have run : (x >>= next).run.run p = (next a).run.run q := by rw [run_bind, run]
    refine .of_run run after.closed (larger.trans after.larger) ?_
    rw [run_bind, same]
    exact after.same

theorem graph {next next' : Graph → Compilation β}
    (h : Mounts S b p (next p.graph) (next' (p.graph.splice S b))) :
    Mounts S b p (Compilation.graph >>= next) (Compilation.graph >>= next') := ⟨h.closed, h.larger, h.same⟩

end Mounts

theorem mounts_report (closed : p.Closed S) (d : Diagnostic) : Mounts S b p (report d) (report d) :=
  .of_note closed (some d) rfl rfl

theorem mounts_refuse (closed : p.Closed S) (strict : Bool) (e : Error) (d : Diagnostic) :
    Mounts S b p (refuse strict e d) (refuse strict e d) := by
  cases strict with
  | true => exact .of_same closed (.error e) rfl rfl
  | false => exact mounts_report closed d

theorem mounts_changeForest (closed : p.Closed S) {change : Forest → Except DocumentError Forest}
    (tries : Graph.Tries S change p.graph) : Mounts S b p (changeForest change) (changeForest change) := by
  cases tries with
  | fails err same same' =>
    exact .of_same closed (.error (.document err)) (run_changeForest_error same) (run_changeForest_error (same' b))
  | does op same same' locally =>
    exact .of_local closed locally (run_changeForest same) (run_changeForest (same' b))

theorem mounts_alter (closed : p.Closed S) {change : Forest → Forest} (h : Graph.Local S (·.inForest change) p.graph) :
    Mounts S b p (changeForest fun f => .ok (change f)) (changeForest fun f => .ok (change f)) :=
  mounts_changeForest closed (.does change rfl (fun _ => rfl) h)

theorem valueAt_splice {g : Graph} (closed : g.Closed S) (known : S.Has g .model m.index) (path : Path) :
    (g.splice S b).valueAt ((g.splice S b).model m).data path = g.valueAt (g.model m).data path := by
  rw [Graph.model_splice known.1]
  exact (Graph.yields_readAlong closed none (fun _ => nofun) (closed.data known) path.last path.parents).told b

theorem mounts_watch (closed : p.Closed S) (known : S.Has p.graph .model m.index) (path : Path) {reaction : Reaction}
    (within : reaction.Within (S.Has p.graph)) : Mounts S b p (watch m path reaction) (watch m path reaction) := by
  have made := Graph.yields_createWatcher closed.graph known path reaction within
  have named := Graph.has_createWatcher closed.graph m path reaction
  refine .of_run (run_watch_eq m path reaction p) ⟨made.locally.closed, ?_⟩ made.locally.larger ?_
  · intro s mem
    rcases List.mem_append.1 mem with mem | mem
    · exact (closed.watchers s mem).mono made.locally.larger
    · rw [List.mem_singleton.1 mem]
      exact named
  · rw [run_watch_eq]
    change (Except.ok ((p.graph.splice S b).valueAt ((p.graph.splice S b).model m).data path), _) = _
    rw [valueAt_splice closed.graph known]
    change (_, (⟨((p.graph.splice S b).createWatcher m path reaction).2,
      p.watchers ++ [((p.graph.splice S b).createWatcher m path reaction).1], p.diagnostics⟩ : Progress)) = _
    rw [made.told, made.locally.splice]
    rfl

theorem fault?_splice {g : Graph} (closed : g.Closed S) (known : S.Has g .model m.index) (source expression : String) :
    (g.splice S b).fault? m source expression = g.fault? m source expression := by
  have path (path : Path) := Graph.hasPath_splice (b := b) closed (closed.data known) path
  simp [Graph.fault?, known.1, path]

theorem mounts_resolve (closed : p.Closed S) (known : S.Has p.graph .model m.index) (source expression : String) :
    Mounts S b p (resolve m source expression) (resolve m source expression) := by
  have fault := fault?_splice (b := b) closed.graph known source expression
  have model : (p.graph.splice S b).model m = p.graph.model m := Graph.model_splice known.1
  have run' := run_resolve source expression (p.splice S b) (m := m)
  rw [Progress.splice, fault, model] at run'
  cases refused : refusal? (p.graph.model m).options.strictDirectives (p.graph.fault? m source expression) with
  | some e =>
    rw [refused] at run'
    refine .of_same closed (.error e) ?_ run'
    rw [run_resolve, refused]
  | none =>
    rw [refused] at run'
    refine .of_note closed (p.graph.fault? m source expression) ?_ run'
    rw [run_resolve, refused]

theorem mounts_compileOn (closed : p.Closed S) (known : S.Has p.graph .model m.index)
    (here : S.Has p.graph .node n.index) (directive event method : String) :
    Mounts S b p (compileOn m n directive event method) (compileOn m n directive event method) := by
  apply Mounts.graph
  rw [Graph.model_splice known.1]
  dsimp only
  split
  · next callback _ => exact mounts_alter closed (Graph.local_listen closed.graph here.1 event trivial)
  · exact mounts_refuse closed _ _ _

theorem mounts_show (closed : p.Closed S) (known : S.Has p.graph .model m.index) (path : Path) {reaction : Reaction}
    (slot : Slot) (here : S.Has p.graph .node slot.node.index) (within : reaction.Within (S.Has p.graph)) :
    let x : Compilation Unit := do
      let v ← watch m path reaction
      changeForest (·.fill slot v.text)
    Mounts S b p x x := by
  refine (mounts_watch closed known path within).bind fun v q _ closed larger => ?_
  exact mounts_changeForest closed (Graph.tries_fill closed.graph (here.mono larger) _)

theorem mounts_compileBind (closed : p.Closed S) (known : S.Has p.graph .model m.index)
    (here : S.Has p.graph .node n.index) (directive name expression : String) :
    Mounts S b p (compileBind m n directive name expression) (compileBind m n directive name expression) := by
  refine (mounts_resolve closed known directive expression).bind fun path? q _ closed larger => ?_
  cases path? with
  | none => exact .pure closed ()
  | some path => exact mounts_show closed (known.mono larger) path (.attr n name) (here.mono larger) (here.mono larger)

theorem mounts_compileText (closed : p.Closed S) (known : S.Has p.graph .model m.index)
    (here : S.Has p.graph .node n.index) (expression : String) :
    Mounts S b p (compileText m n expression) (compileText m n expression) := by
  have resolved := mounts_resolve closed known (interpolationSource expression) expression (b := b)
  refine resolved.bind fun path? q _ closed larger => ?_
  cases path? with
  | none => exact .pure closed ()
  | some path => exact mounts_show closed (known.mono larger) path (.text n) (here.mono larger) (here.mono larger)

theorem mounts_compileModel (closed : p.Closed S) (known : S.Has p.graph .model m.index)
    (here : S.Has p.graph .node n.index) (directive expression : String) :
    Mounts S b p (compileModel m n directive expression) (compileModel m n directive expression) := by
  refine (mounts_resolve closed known directive expression).bind fun path? q _ closed larger => ?_
  cases path? with
  | none => exact .pure closed ()
  | some path =>
    have known := known.mono larger
    have here := here.mono larger
    have made := Graph.local_createRecord closed.graph .undefined
    have recorded := Graph.has_createRecord closed.graph .undefined
    have size : (q.graph.splice S b).records.size = q.graph.records.size := Table.size_splice
    apply Mounts.graph
    dsimp only [Graph.createRecord]
    rw [size]
    refine Mounts.bind (.of_local closed made rfl rfl) fun _ q' run closed larger' => ?_
    cases run
    have known := known.mono larger'
    have here := here.mono larger'
    have within : Reaction.Within (S.Has (q.graph.createRecord .undefined).2) (.showValue n ⟨q.graph.records.size⟩) :=
      ⟨here, recorded⟩
    refine (mounts_watch closed known path within).bind fun v q _ closed larger => ?_
    have known := known.mono larger
    have here := here.mono larger
    have recorded := recorded.mono larger
    refine (mounts_changeForest closed (Graph.tries_setValue closed.graph here.1 v.text)).bind
      fun _ q _ closed larger => ?_
    have known := known.mono larger
    have here := here.mono larger
    have recorded := recorded.mono larger
    apply Mounts.graph
    refine Mounts.bind (.of_local closed (Graph.local_setRecord closed.graph recorded.1 v) rfl rfl)
      fun _ q _ closed larger => ?_
    exact mounts_alter closed (Graph.local_listen closed.graph here.1 "input"
      ⟨known.mono larger, recorded.mono larger⟩)

theorem mounts_compileDirective (closed : p.Closed S) (known : S.Has p.graph .model m.index)
    (here : S.Has p.graph .node n.index) (name value : String) (directive : Directive) :
    Mounts S b p (compileDirective m n name value directive) (compileDirective m n name value directive) := by
  have filled {x : Compilation Unit} (h : Mounts S b p x x) :
      let y := if (trimmed value).isEmpty then report (.missingValue name) else x
      Mounts S b p y y := by
    dsimp only
    split
    · exact mounts_report closed _
    · exact h
  cases directive with
  | malformed => exact mounts_report closed _
  | on event =>
    rw [compileDirective]
    exact filled (mounts_compileOn closed known here name event (trimmed value))
  | bind a =>
    rw [compileDirective]
    exact filled (mounts_compileBind closed known here name a value)
  | model =>
    rw [compileDirective]
    · exact filled (mounts_compileModel closed known here name value)
    all_goals simp

theorem mounts_compileAttributes (closed : p.Closed S) (known : S.Has p.graph .model m.index)
    (here : S.Has p.graph .node n.index) (attributes : List (String × String)) :
    Mounts S b p (compileAttributes m n attributes) (compileAttributes m n attributes) := by
  induction attributes generalizing p with
  | nil => exact .pure closed ()
  | cons pair rest ih =>
    obtain ⟨name, value⟩ := pair
    apply Mounts.graph
    rw [Graph.model_splice known.1]
    dsimp only
    split
    · next directive _ =>
      have compiled := mounts_compileDirective (b := b) closed known here name value directive
      have stripped := Graph.local_removeAttribute compiled.closed.graph (here.mono compiled.larger).1 name
      refine Mounts.bind (x := tryFinally (compileDirective m n name value directive)
        (changeForest fun f => .ok (f.removeAttribute n name))) ?_ fun _ q _ closed larger => ?_
      · refine .of_run (run_tryFinally_ok _ _ p) ⟨stripped.closed, ?_⟩ (compiled.larger.trans stripped.larger) ?_
        · exact fun s mem => (compiled.closed.watchers s mem).mono stripped.larger
        · rw [run_tryFinally_ok, compiled.same]
          exact congrArg (fun graph => (_, { (compileDirective m n name value directive).run.run p |>.2 with graph }))
            (stripped.splice b)
      · exact ih closed (known.mono larger) (here.mono larger)
    · exact ih closed known here

theorem mounts_compileNode (closed : p.Closed S) (known : S.Has p.graph .model m.index)
    (here : S.Has p.graph .node n.index) : Mounts S b p (compileNode m n) (compileNode m n) := by
  apply Mounts.graph
  rw [Graph.content_splice here.1]
  split
  · exact mounts_compileAttributes closed known here _
  · split
    · exact mounts_compileText closed known here _
    · exact .pure closed ()
  · exact .pure closed ()

theorem mounts_compileBelow (closed : p.Closed S) (known : S.Has p.graph .model m.index)
    (here : S.Has p.graph .node n.index) (depth : Nat) :
    Mounts S b p (compileBelow m depth n) (compileBelow m depth n) := by
  induction depth generalizing p n with
  | zero => exact .pure closed ()
  | succ depth ih =>
    apply Mounts.graph
    rw [Graph.children_splice here.1]
    have below := closed.graph.children here.1
    generalize p.graph.forest.children n = nodes at below
    induction nodes generalizing p with
    | nil => exact .pure closed ()
    | cons c nodes rest =>
      have first := below c List.mem_cons_self
      have one :
          Mounts S b p (do compileNode m c; compileBelow m depth c) (do compileNode m c; compileBelow m depth c) :=
        (mounts_compileNode closed known first).bind fun _ q _ closed larger =>
          ih closed (known.mono larger) (first.mono larger)
      exact one.bind fun _ q _ closed larger => rest closed (known.mono larger) (here.mono larger) fun c mem =>
        (below c (List.mem_cons_of_mem _ mem)).mono larger

end Compilation

namespace Graph

variable {g : Graph} {id : CompilerId}

theorem root?_splice (closed : g.Closed S) (made : S.Has g .compiler id.index) :
    (g.splice S b).root? id = g.root? id := by
  rw [root?, compiler_splice made.1, query?_splice closed _ (closed.compiler made).document.1, root?]

theorem local_wrap (closed : g.Closed S) {root : NodeId} (here : S.Has g .node root.index) :
    Local S (·.inForest (·.wrap root)) g := by
  have created := local_create closed .fragment
  have moved := local_adoptAll created.closed (p := ⟨g.forest.size⟩) (has_create closed .fragment)
    (created.closed.children here.1)
  refine .congr_forest rfl (fun b => ?_) (created.comp_forest moved)
  have same : ((g.splice S b).inForest fun f => (f.create .fragment).2).forest.children root =
      (g.inForest fun f => (f.create .fragment).2).forest.children root := by
    rw [created.splice]
    exact children_splice here.1
  rw [Forest.wrap, size_forest_splice]
  exact congrArg _ same

theorem compiled_splice (closed : g.Closed S) (made : S.Has g .compiler id.index) {root : NodeId}
    (here : S.Has g .node root.index) :
    (g.compiled id root).2.Closed S ∧ g.Larger (g.compiled id root).2.graph ∧
      ∀ b, (g.splice S b).compiled id root = ((g.compiled id root).1, (g.compiled id root).2.splice S b) := by
  have wrapped := local_wrap closed here
  have fragment : S.Has (g.inForest (·.wrap root)) .node g.forest.size :=
    ⟨closed.coming .node _ (Nat.le_refl _),
      Nat.lt_of_lt_of_eq (Nat.lt_succ_self _) (Forest.size_wrap g.forest root).symm⟩
  have below (b : Graph) := Compilation.mounts_compileBelow (b := b) (m := (g.compiler id).model) (n := ⟨g.forest.size⟩)
    (p := { graph := g.inForest (·.wrap root), diagnostics := (g.compiler id).diagnostics })
    ⟨wrapped.closed, fun _ mem => absurd mem List.not_mem_nil⟩ ((closed.compiler made).model.mono wrapped.larger)
    fragment (g.forest.wrap root).size
  refine ⟨(below g).closed, wrapped.larger.trans (below g).larger, fun b => ?_⟩
  have same := (below b).same
  rw [Progress.splice, ← wrapped.splice] at same
  have size : ((g.splice S b).forest.wrap root).size = (g.forest.wrap root).size := by
    rw [Forest.size_wrap, Forest.size_wrap, size_forest_splice]
  rw [compiled, compiler_splice made.1, size, size_forest_splice]
  exact same

def settle (id : CompilerId) (root fragment : NodeId) (result : Except Error Unit) (c : Compiler) (g : Graph) :
    Except Error Unit × Graph :=
  match g.forest.append root fragment with
  | .error e => (.error (.document e), g.setCompiler id c)
  | .ok forest =>
    (result, setCompiler { g with forest := forest.retain root } id { c with root := some root, stage := .compiled })

theorem yields_settle (closed : g.Closed S) (here : S .compiler id.index) {root fragment : NodeId}
    (above : S.Has g .node root.index) (below : S.Has g .node fragment.index) (result : Except Error Unit)
    {c : Compiler} (within : c.Within (S.Has g)) : Yields S (settle id root fragment result c) g := by
  cases tries_append closed above below with
  | fails err refused refused' =>
    refine .congr ?_ (fun b => ?_) (.of_local (local_setCompiler closed here within) (.error (.document err)))
    · rw [settle, refused]
    · rw [settle, refused']
  | does change moved moved' locally =>
    have kept := local_retainNode locally.closed above.1
    have larger := locally.larger.trans kept.larger
    let done : Compiler := { c with root := some root, stage := .compiled }
    have known : done.Within (S.Has ((g.inForest change).inForest (·.retain root))) := by
      have within := within.mono fun _ _ has => has.mono larger
      refine ⟨within.document, within.model, ?_, within.watchers⟩
      rintro _ ⟨⟩
      exact above.mono larger
    refine .congr ?_ (fun b => ?_)
      (.of_local ((locally.comp kept).comp (local_setCompiler kept.closed here known)) result)
    · rw [settle, moved]
      rfl
    · rw [settle, moved']
      rfl

theorem init_eq_settle (pending : (g.compiler id).stage = .pending) {root : NodeId} (found : g.root? id = some root) :
    g.init id = settle id root ⟨g.forest.size⟩ (g.compiled id root).1 { g.compiler id with
      watchers := (g.compiled id root).2.watchers
      diagnostics := (g.compiled id root).2.diagnostics } (g.compiled id root).2.graph := by
  refine (init_of_found pending found).trans ?_
  unfold settle
  generalize (g.compiled id root).2.graph.forest.append root ⟨g.forest.size⟩ = moved
  cases moved <;> rfl

theorem yields_init (closed : g.Closed S) (made : S.Has g .compiler id.index) : Yields S (·.init id) g := by
  have compiler (b : Graph) : (g.splice S b).compiler id = g.compiler id := compiler_splice made.1
  have within := closed.compiler made
  by_cases pending : (g.compiler id).stage = .pending
  · cases found : g.root? id with
    | none =>
      let d : Compiler := { g.compiler id with
        stage := .aborted
        diagnostics := (g.compiler id).diagnostics ++ [.rootNotFound (g.compiler id).selector] }
      have noted : Local S (·.setCompiler id d) g :=
        local_setCompiler closed made.1 ⟨within.document, within.model, within.root, within.watchers⟩
      refine .congr (init_of_not_found pending found) (fun b => ?_) (.of_local noted (.ok ()))
      rw [init_of_not_found (by rw [compiler, pending]) (by rw [root?_splice closed made, found]), compiler]
    | some root =>
      have here := has_of_query? closed within.document.1 found
      obtain ⟨closed', larger, same⟩ := compiled_splice closed made here
      have compiled : Local S (fun g => (g.compiled id root).2.graph) g :=
        ⟨closed'.graph, larger, fun b => by rw [same]; rfl⟩
      have fragment : S.Has (g.compiled id root).2.graph .node g.forest.size := by
        refine ⟨closed.coming .node _ (Nat.le_refl _), Nat.lt_of_lt_of_eq (Nat.lt_succ_self _) ?_⟩
        exact ((alike_compiled g id root).size.trans (Forest.size_wrap g.forest root)).symm
      let d : Compiler := { g.compiler id with
        watchers := (g.compiled id root).2.watchers
        diagnostics := (g.compiled id root).2.diagnostics }
      have known : d.Within (S.Has (g.compiled id root).2.graph) := by
        have within := within.mono fun _ _ has => has.mono larger
        exact ⟨within.document, within.model, within.root, closed'.watchers⟩
      refine .congr (init_eq_settle pending found) (fun b => ?_)
        (.after compiled (yields_settle closed'.graph made.1 (here.mono larger) fragment (g.compiled id root).1 known))
      rw [init_eq_settle (by rw [compiler, pending]) (by rw [root?_splice closed made, found]), compiler,
        size_forest_splice, same]
      rfl
  · refine .congr (init_of_not_pending pending) (fun b => ?_) (.of_local (.id closed) (Except.ok ()))
    exact init_of_not_pending (by rw [compiler]; exact pending)

theorem local_dropCompiler (closed : g.Closed S) (made : S.Has g .compiler id.index) :
    Local S (·.dropCompiler id) g := by
  have within := closed.compiler made
  let d : Compiler := { g.compiler id with dropped := true }
  have dropped : Local S (·.setCompiler id d) g :=
    local_setCompiler closed made.1 ⟨within.document, within.model, within.root, within.watchers⟩
  have released : Local S (fun g' => (g.compiler id).watchers.foldl release g') (g.setCompiler id d) := by
    apply Local.foldl (F := fun g s => S.Has g .subscriber s.index)
    · exact fun _ _ _ has larger => has.mono larger
    · exact fun g s closed has => local_release closed has.1
    · exact dropped.closed
    · exact fun s mem => (within.watchers s mem).mono dropped.larger
  have larger := dropped.larger.trans released.larger
  have freed : Local S
      (·.inForest fun f => ((g.compiler id).document :: (g.compiler id).root.toList).foldl Forest.release f)
      ((g.compiler id).watchers.foldl release (g.setCompiler id d)) := by
    apply Local.foldl_forest (F := fun g n => S.Has g .node n.index)
    · exact fun _ _ _ has larger => has.mono larger
    · exact fun g n closed has => local_releaseNode closed has.1
    · exact released.closed
    · intro n mem
      rcases List.mem_cons.1 mem with rfl | mem
      · exact within.document.mono larger
      · exact (within.root n (Option.mem_toList.1 mem)).mono larger
  refine .congr rfl (fun b => ?_) ((dropped.comp released).comp freed)
  rw [dropCompiler, compiler_splice made.1]
  rfl

end Graph

end DataBinding
