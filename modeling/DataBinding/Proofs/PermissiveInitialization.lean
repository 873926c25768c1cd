import DataBinding.Proofs.CompilationModes
import DataBinding.Proofs.ReaderRegistration

namespace DataBinding

namespace Graph

variable {g : Graph} {id : CompilerId} {root : NodeId}

def Done (g : Graph) (id : CompilerId) : Prop := id.index < g.compilers.size ∧ (g.compiler id).stage ≠ .pending

theorem init_of_closed (linked : g.forest.Linked) (made : id.index < g.compilers.size)
    (pending : (g.compiler id).stage = .pending) (found : g.root? id = some root)
    (closed : (g.forest.content root).takesChildren = false) :
    (g.init id).1 = .error (.document (.misplaced .childlessParent)) ∧
      ((g.init id).2.compiler id).stage = .pending ∧
      ((g.init id).2.compiler id).diagnostics = (g.compiler id).diagnostics := by
  have childless := linked.solid closed
  have closed' : ((g.start id root).graph.forest.content root).takesChildren = false := by
    rw [content_start, closed]
  rw [init_of_found pending found, compiled_of_childless linked (Forest.exists_of_query? found) childless,
    Forest.append, closed']
  have compiler (d : Compiler) : ((g.start id root).graph.setCompiler id d).compiler id = d := by
    rw [compiler_setCompiler, if_pos ⟨rfl, made⟩]
  simp only [Bool.not_false, if_true, compiler, true_and]
  exact ⟨pending, rfl⟩

theorem done_init_of_open (known : (g.compiler id).model.index < g.models.size) (made : id.index < g.compilers.size)
    (pending : (g.compiler id).stage = .pending) (found : g.root? id = some root)
    (takes : (g.forest.content root).takesChildren = true) : (g.init id).2.Done id := by
  have compilers := (compiled_compiled known root).compilers
  have made' : id.index < (g.compiled id root).2.graph.compilers.size := by rwa [compilers]
  rw [init_of_open pending found takes]
  constructor
  · simpa using made'
  · simp [made']

theorem done_init_of_not_found (made : id.index < g.compilers.size) (pending : (g.compiler id).stage = .pending)
    (absent : g.root? id = none) : (g.init id).2.Done id := by
  rw [init_of_not_found pending absent]
  constructor
  · simpa using made
  · simp [made]

theorem Done.of_modify {g' : Graph} {other : CompilerId} {d : Compiler} (done : g.Done id) (apart : id ≠ other)
    (compilers : g'.compilers = g.compilers.modify other.index fun _ => d) : g'.Done id := by
  rw [Done, compiler_of_modify compilers, compilers, Table.size_modify, if_neg fun here => apart here.1]
  exact done

end Graph

theorem Engine.done_perform {e : Engine} {m : Move} {c : CompilerId} (wf : e.WellFormed) (allowed : e.Allows m)
    (done : e.graph.Done c) : (e.perform m).graph.Done c := by
  have has := allowed.2
  rcases compilers_perform allowed with same | ⟨document, selector, model, rfl⟩ | ⟨c', rfl | rfl⟩
  · rw [Graph.Done, Graph.compiler, same]
    exact done
  · have apart : c.index ≠ e.graph.compilers.size := Nat.ne_of_lt done.1
    constructor
    · rw [perform, Graph.size_createCompiler]
      exact Nat.lt_succ_of_lt done.1
    · simpa [perform, apart] using done.2
  · by_cases pending : (e.graph.compiler c').stage = .pending
    · obtain ⟨d, compilers, -⟩ := (Graph.initializes_init (wf.compilers has.1)).compilers
      apply done.of_modify _ compilers
      rintro rfl
      exact done.2 pending
    · rw [perform, Graph.init_of_not_pending pending]
      exact done
  · by_cases same : c = c'
    · subst same
      simpa [Graph.Done, perform, done.1] using done
    · exact done.of_modify same (compilers_dropCompiler e.graph c')

namespace Run

variable {h h₀ h₁ : History} {e e₀ : Engine} {c : CompilerId}

theorem done_later (run₀ : Run h₀ e₀) (run : Run (h₁ ++ h₀) e) (done : e₀.graph.Done c) : e.graph.Done c :=
  run₀.onward run done fun _ _ _ earlier allowed => Engine.done_perform earlier.wellFormed allowed

/-- A permissive compilation goes through unless its root takes no children. Without a root it tells just this and does
nothing; otherwise it tells what is wrong at the sites below the root. After that no compilation does anything, whatever
happens in between. Below a root that takes no children it fails, and stays to be done. -/
theorem init_permissive (run : Run h e) (founded : h.Founded) (allowed : e.Allows (.init c))
    (pending : (e.graph.compiler c).stage = .pending)
    (document : e.graph.forest.content (e.graph.compiler c).document = .document)
    (permissive : (e.graph.model (e.graph.compiler c).model).options.strictDirectives = false) :
    let g := e.graph
    let g' := (e.perform (.init c)).graph
    ((g.init c).1 = .ok () ↔ ∀ root, g.root? c = some root → (g.forest.content root).takesChildren = true) ∧
      (g.root? c = none → g' = g.setCompiler c { g.compiler c with
        stage := .aborted
        diagnostics := [.rootNotFound (g.compiler c).selector] }) ∧
      (∀ root, g.root? c = some root → (g.forest.content root).takesChildren = true →
        (g'.compiler c).diagnostics = (g.sites c root).filterMap (·.fault? g (g.compiler c).model)) ∧
      (∀ root, g.root? c = some root → (g.forest.content root).takesChildren = false →
        (g.init c).1 = .error (.document (.misplaced .childlessParent)) ∧ (g'.compiler c).stage = .pending ∧
          (g'.compiler c).diagnostics = []) ∧
      ((g.init c).1 = .ok () → ∀ h₁ e₁, Run (h₁ ++ (e, .init c) :: h) e₁ →
        e₁.graph.init c = (.ok (), e₁.graph)) := by
  intro g g'
  have made : c.index < g.compilers.size := allowed.2.1
  have untold := run.untold founded c pending
  have closed (root : NodeId) (found : g.root? c = some root)
      (closed : (g.forest.content root).takesChildren = false) :=
    Graph.init_of_closed (run.linked founded).1 made pending found closed
  have opened (root : NodeId) (found : g.root? c = some root)
      (takes : (g.forest.content root).takesChildren = true) :
      (g.init c).1 = .ok () ∧
        (g'.compiler c).diagnostics = (g.sites c root).filterMap (·.fault? g (g.compiler c).model) := by
    obtain ⟨result, told, -⟩ := (run.ready founded allowed pending document found takes).init_modes
    rw [Graph.inMode_self permissive] at result told
    exact ⟨result, told⟩
  have through : (g.init c).1 = .ok () ↔
      ∀ root, g.root? c = some root → (g.forest.content root).takesChildren = true := by
    constructor
    · intro done root found
      cases takes : (g.forest.content root).takesChildren with
      | true => rfl
      | false =>
        rw [(closed root found takes).1] at done
        cases done
    · intro takes
      cases found : g.root? c with
      | none => rw [Graph.init_of_not_found pending found]
      | some root => exact (opened root found (takes root found)).1
  refine ⟨through, ?_, fun root found takes => (opened root found takes).2, ?_, ?_⟩
  · intro absent
    have performed : g' = (g.init c).2 := rfl
    rw [performed, Graph.init_of_not_found pending absent, untold]
    rfl
  · intro root found takes
    obtain ⟨failed, still, told⟩ := closed root found takes
    exact ⟨failed, still, told.trans untold⟩
  · intro done h₁ e₁ later
    -- a compiler that has been at work stays as it is
    have first : g'.Done c := by
      cases found : g.root? c with
      | none => exact Graph.done_init_of_not_found made pending found
      | some root =>
        exact Graph.done_init_of_open (run.wellFormed.compilers made) made pending found (through.1 done root found)
    exact Graph.init_of_not_pending ((run.move allowed).done_later later first).2

def faulty (selector : String) : Scene where
  before := [.createStore [("a", .string "x")], .createModel { data := ⟨0⟩, methods := [], options := {} }]
  markup := "<p><b :='a' @click='go'>\x7b\x7b c \x7d\x7d</b><input model='b.'></p>"
  later := [.createCompiler ⟨0⟩ selector ⟨0⟩]

def faced (selector : String) : Engine := (faulty selector).ended

def Starts (selector : String) : Prop :=
  (faulty selector).plays = true ∧ (faced selector).Allows (.init ⟨0⟩) ∧
    ((faced selector).graph.compiler ⟨0⟩).stage = .pending ∧
    ((faced selector).graph.forest.content ((faced selector).graph.compiler ⟨0⟩).document).kind = "document" ∧
    ((faced selector).graph.model ((faced selector).graph.compiler ⟨0⟩).model).options.strictDirectives = false

instance (selector : String) : Decidable (Starts selector) := inferInstanceAs (Decidable (_ ∧ _))

theorem starts_faced :
    (Starts "p" ∧ (faced "p").graph.root? ⟨0⟩ = some ⟨1⟩ ∧
        ((faced "p").graph.forest.content ⟨1⟩).takesChildren = true ∧
        ((faced "p").graph.sites ⟨0⟩ ⟨1⟩).filterMap
            (·.fault? (faced "p").graph ((faced "p").graph.compiler ⟨0⟩).model) =
          [.missingArgument ":", .missingMethod "@click" "go", .missingPath "\x7b\x7b c \x7d\x7d" ⟨[], "c"⟩,
            .invalidExpression "model" "b."]) ∧
      (Starts "u" ∧ (faced "u").graph.root? ⟨0⟩ = none ∧ ((faced "u").graph.compiler ⟨0⟩).selector = "u") ∧
      Starts "input" ∧
        ((faced "input").graph.root? ⟨0⟩ = some ⟨4⟩ ∧
          ((faced "input").graph.forest.content ⟨4⟩).takesChildren = false) ∧
        0 < ((faced "input").graph.init ⟨0⟩).2.compilers.size ∧
          ((faced "input").graph.init ⟨0⟩).2.root? ⟨0⟩ = some ⟨4⟩ ∧
          (((faced "input").graph.init ⟨0⟩).2.forest.content ⟨4⟩).takesChildren = false := by decide +kernel

theorem faulty_init_permissive :
    ((faced "p").graph.init ⟨0⟩).1 = .ok () ∧
      (((faced "p").perform (.init ⟨0⟩)).graph.compiler ⟨0⟩).diagnostics =
        [.missingArgument ":", .missingMethod "@click" "go", .missingPath "\x7b\x7b c \x7d\x7d" ⟨[], "c"⟩,
          .invalidExpression "model" "b."] ∧
      ((faced "p").perform (.init ⟨0⟩)).graph.init ⟨0⟩ = (.ok (), ((faced "p").perform (.init ⟨0⟩)).graph) ∧
      (((faced "u").perform (.init ⟨0⟩)).graph.compiler ⟨0⟩).diagnostics = [.rootNotFound "u"] := by
  obtain ⟨⟨⟨plays, allowed, pending, document, permissive⟩, found, takes, faults⟩,
    ⟨⟨plays', allowed', pending', document', permissive'⟩, absent, named⟩, -⟩ := starts_faced
  have run : Run (faulty "p").history (faced "p") := Scene.run plays
  have run' : Run (faulty "u").history (faced "u") := Scene.run plays'
  obtain ⟨through, -, told, -, later⟩ := init_permissive run (Scene.proper plays).1 allowed pending
    ((Forest.eq_document_iff _).2 document) permissive
  obtain ⟨-, lost, -⟩ := init_permissive run' (Scene.proper plays').1 allowed' pending'
    ((Forest.eq_document_iff _).2 document') permissive'
  have done : ((faced "p").graph.init ⟨0⟩).1 = .ok () := by
    apply through.2
    intro root other
    obtain rfl := Option.some.inj (found.symm.trans other)
    exact takes
  refine ⟨done, (told ⟨1⟩ found takes).trans faults, later done [] _ (run.move allowed), ?_⟩
  rw [lost absent, Graph.compiler_setCompiler, if_pos ⟨rfl, allowed'.2.1⟩, named]

/-- A permissive compilation fails, and the compiler is no further than before. -/
theorem faulty_init_fails :
    Run (faulty "input").history (faced "input") ∧ (faulty "input").history.Founded ∧
      (faced "input").Allows (.init ⟨0⟩) ∧ ((faced "input").graph.compiler ⟨0⟩).stage = .pending ∧
      (faced "input").graph.forest.content ((faced "input").graph.compiler ⟨0⟩).document = .document ∧
      ((faced "input").graph.model ((faced "input").graph.compiler ⟨0⟩).model).options.strictDirectives = false ∧
      ((faced "input").graph.init ⟨0⟩).1 = .error (.document (.misplaced .childlessParent)) ∧
      (((faced "input").perform (.init ⟨0⟩)).graph.init ⟨0⟩).1 =
        .error (.document (.misplaced .childlessParent)) := by
  obtain ⟨-, -, ⟨plays, allowed, pending, document, permissive⟩, ⟨found, closed⟩, made', found', closed'⟩ :=
    starts_faced
  have run : Run (faulty "input").history (faced "input") := Scene.run plays
  have founded := (Scene.proper plays).1
  have linked := (run.linked founded).1
  have linked' := (Graph.linked_init linked ⟨0⟩).1
  have failed := Graph.init_of_closed linked allowed.2.1 pending found closed
  have again := Graph.init_of_closed linked' made' failed.2.1 found' closed'
  exact ⟨run, founded, allowed, pending, (Forest.eq_document_iff _).2 document, permissive, failed.1, again.1⟩

end Run

end DataBinding
