import DataBinding.Proofs.CompilationPieces

/-!
The places in a document that compilation binds, what is wrong with each and what is made of it. Compiling a site is a
function of the progress so far.
-/

namespace DataBinding

inductive Site where
  | directive (n : NodeId) (name value : String) (d : Directive)
  | text (n : NodeId) (expression : String)
  deriving DecidableEq

/-- The error that stands for a diagnostic where directives are strict. A directive that lacks something stays a
diagnostic. -/
def Diagnostic.error? : Diagnostic → Option Error
  | .missingMethod directive method => some (.unknownMethod method directive)
  | .missingPath source path => some (.unknownPath path source)
  | .invalidExpression _ expression => some (.invalidPath expression)
  | _ => none

def refusal? (strict : Bool) (d? : Option Diagnostic) : Option Error :=
  if strict then d?.bind Diagnostic.error? else none

def Graph.fault? (g : Graph) (m : ModelId) (source expression : String) : Option Diagnostic :=
  match Path.read? expression with
  | none => some (.invalidExpression source expression)
  | some path => if g.hasPath (g.model m).data path then none else some (.missingPath source path)

namespace Site

def node : Site → NodeId
  | .directive n _ _ _ | .text n _ => n

def slot : Site → Slot
  | .directive n _ _ _ => .value n
  | .text n _ => .text n

def fault? (g : Graph) (m : ModelId) : Site → Option Diagnostic
  | .directive _ name _ .malformed => some (.missingArgument name)
  | .directive _ name value d =>
    if (trimmed value).isEmpty then some (.missingValue name)
    else match d with
      | .on _ =>
        if (g.model m).methods.contains (trimmed value) then none else some (.missingMethod name (trimmed value))
      | _ => g.fault? m name value
  | .text _ expression => g.fault? m (interpolationSource expression) expression

def failure? (g : Graph) (m : ModelId) (site : Site) : Option Error :=
  refusal? (g.model m).options.strictDirectives (site.fault? g m)

def diagnosis? (g : Graph) (m : ModelId) (site : Site) : Option Diagnostic :=
  if (site.failure? g m).isSome then none else site.fault? g m

def expression? : Site → Option String
  | .directive _ _ value (.bind _) | .directive _ _ value .model =>
    if (trimmed value).isEmpty then none else some value
  | .text _ expression => some expression
  | _ => none

def path? (g : Graph) (m : ModelId) (site : Site) : Option Path :=
  if (site.failure? g m).isSome then none else site.expression?.bind Path.read?

def callback? (g : Graph) (m : ModelId) : Site → Option CallbackId
  | .directive _ _ value (.on _) =>
    if (trimmed value).isEmpty then none else (g.model m).methods.get? (trimmed value)
  | _ => none

def slot? : Site → Option Slot
  | .directive n _ _ (.bind a) => some (.attr n a)
  | .directive n _ _ .model => some (.value n)
  | .text n _ => some (.text n)
  | _ => none

def records (g : Graph) (m : ModelId) (site : Site) : Bool :=
  match site with
  | .directive _ _ _ .model => (site.path? g m).isSome
  | _ => false

def reaction? (r : RecordId) : Site → Option Reaction
  | .directive n _ _ (.bind a) => some (.showAttribute n a)
  | .directive n _ _ .model => some (.showValue n r)
  | .text n _ => some (.showText n)
  | _ => none

def watcher? (g : Graph) (m : ModelId) (r : RecordId) (site : Site) : Option Watcher :=
  (site.path? g m).bind fun path => (site.reaction? r).map (g.newWatcher m path)

def listener? (g : Graph) (m : ModelId) (r : RecordId) (site : Site) : Option (String × Listener) :=
  match site with
  | .directive _ _ _ (.on event) => (site.callback? g m).map fun callback => (event, .method m callback)
  | .directive _ _ _ .model => (site.path? g m).map fun path => ("input", .input m path r)
  | _ => none

def fill (g : Graph) (m : ModelId) (site : Site) (c : Content) : Content :=
  match site.path? g m, site.slot? with
  | some path, some slot => c.put (g.valueAt (g.model m).data path).text slot
  | _, _ => c

def leave (c : Content) : Site → Content
  | .directive _ name _ _ => c.without name
  | .text _ _ => c

def rewrite (g : Graph) (m : ModelId) (site : Site) (c : Content) : Content := leave (site.fill g m c) site

end Site

namespace Progress

def alter (p : Progress) (change : Forest → Forest) : Progress :=
  { p with graph := { p.graph with forest := change p.graph.forest } }

def note (p : Progress) (d? : Option Diagnostic) : Progress := { p with diagnostics := p.diagnostics ++ d?.toList }

@[simp] theorem note_graph (p : Progress) (d? : Option Diagnostic) : (p.note d?).graph = p.graph := rfl

def display (p : Progress) (m : ModelId) (path : Path) (reaction : Reaction) (slot : Slot) : Progress :=
  let made := p.graph.createWatcher m path reaction
  let text := (p.graph.valueAt (p.graph.model m).data path).text
  alter { p with graph := made.2, watchers := p.watchers ++ [made.1] } fun f =>
    f.setContent slot.node ((f.content slot.node).put text slot)

theorem forest_display (p : Progress) (m : ModelId) (path : Path) (reaction : Reaction) (slot : Slot) :
    (p.display m path reaction slot).graph.forest =
      (p.graph.createWatcher m path reaction).2.forest.setContent slot.node
        (((p.graph.createWatcher m path reaction).2.forest.content slot.node).put
          (p.graph.valueAt (p.graph.model m).data path).text slot) := rfl

def displayInput (p : Progress) (m : ModelId) (n : NodeId) (path : Path) : Progress :=
  let (r, graph) := p.graph.createRecord .undefined
  let q := display { p with graph } m path (.showValue n r) (.value n)
  alter { q with graph := q.graph.setRecord r (graph.valueAt (graph.model m).data path) } fun f =>
    f.listen n "input" (.input m path r)

def attach (p : Progress) (m : ModelId) (site : Site) : Progress :=
  match site with
  | .directive _ _ _ .malformed => p
  | .directive n _ _ (.on event) =>
    (site.callback? p.graph m).elim p fun callback => p.alter (·.listen n event (.method m callback))
  | .directive n _ _ (.bind a) =>
    (site.path? p.graph m).elim p fun path => p.display m path (.showAttribute n a) (.attr n a)
  | .directive n _ _ .model => (site.path? p.graph m).elim p (p.displayInput m n)
  | .text n _ => (site.path? p.graph m).elim p fun path => p.display m path (.showText n) (.text n)

def strip (p : Progress) : Site → Progress
  | .directive n name _ _ => p.alter (·.removeAttribute n name)
  | .text _ _ => p

def handle (p : Progress) (m : ModelId) (site : Site) : Progress :=
  ((p.note (site.diagnosis? p.graph m)).attach m site).strip site

end Progress

namespace Compilation

variable {m : ModelId} {p : Progress} {n : NodeId} {slot : Slot} {f : Forest}

def compileSite (m : ModelId) : Site → Compilation Unit
  | .directive n name value directive =>
    try compileDirective m n name value directive
    finally changeForest fun f => .ok (f.removeAttribute n name)
  | .text n expression => compileText m n expression

@[simp] theorem run_refuse (strict : Bool) (e : Error) (d : Diagnostic) (p : Progress) :
    (refuse strict e d).run.run p = if strict then (.error e, p) else (.ok (), p.note (some d)) := by
  cases strict <;> rfl

theorem run_resolve (source expression : String) (p : Progress) :
    (resolve m source expression).run.run p =
      match refusal? (p.graph.model m).options.strictDirectives (p.graph.fault? m source expression) with
      | some e => (.error e, p)
      | none => (.ok (Path.read? expression), p.note (p.graph.fault? m source expression)) := by
  rw [resolve, run_graph]
  dsimp only
  split
  · next unread =>
    have fault : p.graph.fault? m source expression = some (.invalidExpression source expression) := by
      simp [Graph.fault?, unread]
    rw [run_bind, run_refuse, fault, unread]
    cases (p.graph.model m).options.strictDirectives <;> rfl
  · next path read =>
    rw [run_graph]
    split
    · next here =>
      have fault : p.graph.fault? m source expression = none := by simp [Graph.fault?, read, here]
      rw [fault, read]
      cases (p.graph.model m).options.strictDirectives <;> simp [refusal?, Progress.note] <;> rfl
    · next missing =>
      have fault : p.graph.fault? m source expression = some (.missingPath source path) := by
        simp [Graph.fault?, read, missing]
      rw [run_bind, run_refuse, fault, read]
      cases (p.graph.model m).options.strictDirectives <;> rfl

theorem run_display (path : Path) (reaction : Reaction) (takes : p.graph.forest.takes slot) :
    (do
      let v ← watch m path reaction
      changeForest (·.fill slot v.text) : Compilation Unit).run.run p = (.ok (), p.display m path reaction slot) := by
  have gains := Graph.gains_createWatcher p.graph m path reaction
  rw [run_bind, run_watch_eq]
  dsimp only
  rw [run_changeForest (Forest.fill_eq (by rwa [gains.keeps.takes]) _)]
  rfl

theorem run_displayInput (path : Path) (takes : p.graph.forest.takes (.value n)) :
    (do
      let (r, g) := (← graph).createRecord .undefined
      setGraph g
      let v ← watch m path (.showValue n r)
      changeForest (·.setValue n v.text)
      setGraph ((← graph).setRecord r v)
      changeForest fun f => .ok (f.listen n "input" (.input m path r)) : Compilation Unit).run.run p =
      (.ok (), p.displayInput m n path) := by
  rw [run_graph]
  dsimp only [Graph.createRecord]
  rw [run_bind, run_setGraph]
  dsimp only
  let q : Progress := { p with graph := { p.graph with records := p.graph.records.add .undefined } }
  have gains := Graph.gains_createWatcher q.graph m path (.showValue n ⟨p.graph.records.size⟩)
  have takes' : (q.graph.createWatcher m path (.showValue n ⟨p.graph.records.size⟩)).2.forest.takes (.value n) := by
    rwa [gains.keeps.takes]
  rw [run_bind, run_watch_eq]
  dsimp only
  rw [run_bind, run_changeForest (Forest.fill_eq takes' (q.graph.valueAt (q.graph.model m).data path).text)]
  dsimp only
  rw [run_graph, run_bind, run_setGraph]
  dsimp only
  rw [run_changeForest_ok]
  rfl

def outcome : Option Error → Except Error Unit
  | some e => .error e
  | none => .ok ()

theorem run_resolving {site : Site} {source expression : String} {next : Path → Compilation Unit}
    (fault : site.fault? p.graph m = p.graph.fault? m source expression)
    (asked : site.expression? = some expression)
    (bound : ∀ path, site.path? p.graph m = some path → (next path).run.run (p.note (site.diagnosis? p.graph m)) =
      (.ok (), (p.note (site.diagnosis? p.graph m)).attach m site))
    (unbound : site.path? p.graph m = none →
      (p.note (site.diagnosis? p.graph m)).attach m site = p.note (site.diagnosis? p.graph m)) :
    (do if let some path ← resolve m source expression then next path : Compilation Unit).run.run p =
      (outcome (site.failure? p.graph m), (p.note (site.diagnosis? p.graph m)).attach m site) := by
  have failure : site.failure? p.graph m =
      refusal? (p.graph.model m).options.strictDirectives (p.graph.fault? m source expression) := by
    rw [Site.failure?, fault]
  rw [run_bind, run_resolve, ← failure]
  cases failed : site.failure? p.graph m with
  | some e =>
    have path : site.path? p.graph m = none := by rw [Site.path?, failed]; rfl
    have diagnosis : site.diagnosis? p.graph m = none := by rw [Site.diagnosis?, failed]; rfl
    rw [unbound path, diagnosis]
    simp [Progress.note, outcome]
  | none =>
    have path : site.path? p.graph m = Path.read? expression := by rw [Site.path?, failed, asked]; rfl
    have diagnosis : site.diagnosis? p.graph m = p.graph.fault? m source expression := by
      rw [Site.diagnosis?, failed, fault]; rfl
    rw [← diagnosis]
    dsimp only
    cases read : Path.read? expression with
    | none =>
      rw [unbound (path.trans read)]
      rfl
    | some found => exact bound found (path.trans read)

theorem run_compileText (expression : String) (takes : p.graph.forest.takes (.text n)) :
    (compileText m n expression).run.run p = (outcome (Site.failure? p.graph m (.text n expression)),
      (p.note (Site.diagnosis? p.graph m (.text n expression))).attach m (.text n expression)) := by
  apply run_resolving rfl rfl
  · intro path bound
    rw [Progress.attach, Progress.note_graph, bound]
    exact run_display (p := p.note _) path (.showText n) takes
  · intro unbound
    rw [Progress.attach, Progress.note_graph, unbound]
    rfl

theorem run_fault {site : Site} {d : Diagnostic} (fault : site.fault? p.graph m = some d)
    (unbound : ∀ d?, (p.note d?).attach m site = p.note d?) :
    (outcome (site.failure? p.graph m), (p.note (site.diagnosis? p.graph m)).attach m site) =
      match refusal? (p.graph.model m).options.strictDirectives (some d) with
      | some e => (.error e, p)
      | none => (.ok (), p.note (some d)) := by
  rw [unbound, Site.diagnosis?, Site.failure?, fault]
  cases refusal? (p.graph.model m).options.strictDirectives (some d) with
  | some e => simp [outcome, Progress.note]
  | none => rfl

theorem run_report {site : Site} {d : Diagnostic} (fault : site.fault? p.graph m = some d) (mild : d.error? = none)
    (unbound : ∀ d?, (p.note d?).attach m site = p.note d?) :
    (report d).run.run p =
      (outcome (site.failure? p.graph m), (p.note (site.diagnosis? p.graph m)).attach m site) := by
  rw [run_fault fault unbound, refusal?, Option.bind_some, mild, ite_self]
  rfl

theorem run_compileOn {name value event : String} (filled : (trimmed value).isEmpty = false) :
    (compileOn m n name event (trimmed value)).run.run p =
      (outcome (Site.failure? p.graph m (.directive n name value (.on event))),
        (p.note (Site.diagnosis? p.graph m (.directive n name value (.on event)))).attach m
          (.directive n name value (.on event))) := by
  let site : Site := .directive n name value (.on event)
  have callback : site.callback? p.graph m = (p.graph.model m).methods.get? (trimmed value) := by
    simp [site, Site.callback?, filled]
  rw [compileOn, run_graph]
  dsimp only
  cases found : (p.graph.model m).methods.get? (trimmed value) with
  | some called =>
    have fault : site.fault? p.graph m = none := by simp [site, Site.fault?, filled, Fields.contains, found]
    have failure : site.failure? p.graph m = none := by rw [Site.failure?, fault, refusal?, Option.bind_none, ite_self]
    have diagnosis : site.diagnosis? p.graph m = none := by rw [Site.diagnosis?, failure, fault]; rfl
    rw [failure, diagnosis, Progress.attach, Progress.note_graph, callback, found]
    simp [Progress.note]
    rfl
  | none =>
    have fault : site.fault? p.graph m = some (.missingMethod name (trimmed value)) := by
      simp [site, Site.fault?, filled, Fields.contains, found]
    rw [run_fault fault fun d? => by rw [Progress.attach, Progress.note_graph, callback, found]; rfl, run_refuse]
    cases (p.graph.model m).options.strictDirectives <;> rfl

theorem run_compileBind {name value a : String} (filled : (trimmed value).isEmpty = false)
    (takes : p.graph.forest.takes (.attr n a)) :
    (compileBind m n name a value).run.run p =
      (outcome (Site.failure? p.graph m (.directive n name value (.bind a))),
        (p.note (Site.diagnosis? p.graph m (.directive n name value (.bind a)))).attach m
          (.directive n name value (.bind a))) := by
  apply run_resolving (by simp [Site.fault?, filled]) (by simp [Site.expression?, filled])
  · intro path bound
    rw [Progress.attach, Progress.note_graph, bound]
    exact run_display (p := p.note _) path (.showAttribute n a) takes
  · intro unbound
    rw [Progress.attach, Progress.note_graph, unbound]
    rfl

theorem run_compileModel {name value : String} (filled : (trimmed value).isEmpty = false)
    (takes : p.graph.forest.takes (.value n)) :
    (compileModel m n name value).run.run p =
      (outcome (Site.failure? p.graph m (.directive n name value .model)),
        (p.note (Site.diagnosis? p.graph m (.directive n name value .model))).attach m
          (.directive n name value .model)) := by
  apply run_resolving (by simp [Site.fault?, filled]) (by simp [Site.expression?, filled])
  · intro path bound
    simpa [Progress.attach, bound] using run_displayInput (p := p.note _) path takes
  · intro unbound
    rw [Progress.attach, Progress.note_graph, unbound]
    rfl

theorem run_compileDirective {name value : String} {directive : Directive} (takes : p.graph.forest.takes (.value n)) :
    (compileDirective m n name value directive).run.run p =
      (outcome (Site.failure? p.graph m (.directive n name value directive)),
        (p.note (Site.diagnosis? p.graph m (.directive n name value directive))).attach m
          (.directive n name value directive)) := by
  cases filled : (trimmed value).isEmpty with
  | true =>
    cases directive with
    | malformed => exact run_report rfl rfl fun _ => rfl
    | _ =>
      simp only [compileDirective, filled, if_true]
      apply run_report (by simp [Site.fault?, filled]) rfl
      simp [Progress.attach, Site.callback?, Site.path?, Site.expression?, filled]
  | false =>
    cases directive with
    | malformed => exact run_report rfl rfl fun _ => rfl
    | on event =>
      simp only [compileDirective, filled, Bool.false_eq_true, if_false]
      exact run_compileOn filled
    | bind a =>
      simp only [compileDirective, filled, Bool.false_eq_true, if_false]
      exact run_compileBind filled (takes_attr takes a)
    | model =>
      simp only [compileDirective, filled, Bool.false_eq_true, if_false]
      exact run_compileModel filled takes

theorem run_tryFinally_ok (x : Compilation Unit) (change : Forest → Forest) (p : Progress) :
    (tryFinally x (changeForest fun f => .ok (change f))).run.run p =
      ((x.run.run p).1, (x.run.run p).2.alter change) := by
  obtain ⟨⟨r, q⟩, hx⟩ : ∃ r, x.run.run p = r := ⟨_, rfl⟩
  rw [hx]
  change x p = (r, q) at hx
  cases r <;>
    simp only [tryFinally, tryFinally', StateT.run, ExceptT.run, ExceptT.mk, Functor.map, ExceptT.map, bind,
      StateT.bind, hx] <;> rfl

theorem run_compileSite {site : Site} (takes : p.graph.forest.takes site.slot) :
    (compileSite m site).run.run p = (outcome (site.failure? p.graph m), p.handle m site) := by
  cases site with
  | directive n name value directive =>
    rw [compileSite, run_tryFinally_ok, run_compileDirective takes]
    rfl
  | text n expression => exact run_compileText expression takes

end Compilation

end DataBinding
