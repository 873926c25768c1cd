import DataBinding.Graph.Watcher
import DataBinding.Template.Directive
import DataBinding.Template.Interpolation

namespace DataBinding

structure Progress where
  graph : Graph
  watchers : List SubscriberId := []
  diagnostics : List Diagnostic := []

abbrev Compilation (α : Type) := ExceptT Error (StateM Progress) α

namespace Compilation

def graph : Compilation Graph := return (← get).graph

def setGraph (g : Graph) : Compilation Unit := modify ({ · with graph := g })

def changeForest (change : Forest → Except DocumentError Forest) : Compilation Unit := do
  match change (← graph).forest with
  | .ok forest => setGraph { ← graph with forest }
  | .error e => throw (.document e)

def report (d : Diagnostic) : Compilation Unit :=
  modify fun p => { p with diagnostics := p.diagnostics ++ [d] }

/-- Stops with an error where directives are strict, and records a diagnostic elsewhere. -/
def refuse (strict : Bool) (e : Error) (d : Diagnostic) : Compilation Unit :=
  if strict then throw e else report d

/-- The path of an expression. An expression that is no path has no binding; a path without data has one. -/
def resolve (m : ModelId) (source expression : String) : Compilation (Option Path) := do
  let model := (← graph).model m
  let strict := model.options.strictDirectives
  match Path.read? expression with
  | none =>
    refuse strict (.invalidPath expression) (.invalidExpression source expression)
    return none
  | some path =>
    unless (← graph).hasPath model.data path do
      refuse strict (.unknownPath path source) (.missingPath source path)
    return some path

def watch (m : ModelId) (path : Path) (reaction : Reaction) : Compilation Value := do
  let (s, g) := (← graph).createWatcher m path reaction
  modify fun p => { p with graph := g, watchers := p.watchers ++ [s] }
  return ((g.watcher? s).map Watcher.value).getD .undefined

def compileOn (m : ModelId) (n : NodeId) (directive event method : String) : Compilation Unit := do
  let model := (← graph).model m
  match model.methods.get? method with
  | some callback => changeForest fun f => .ok (f.listen n event (.method m callback))
  | none =>
    refuse model.options.strictDirectives (.unknownMethod method directive) (.missingMethod directive method)

def compileBind (m : ModelId) (n : NodeId) (directive name expression : String) : Compilation Unit := do
  if let some path ← resolve m directive expression then
    let v ← watch m path (.showAttribute n name)
    changeForest (·.setAttribute n name v.text)

def compileModel (m : ModelId) (n : NodeId) (directive expression : String) : Compilation Unit := do
  if let some path ← resolve m directive expression then
    let (r, g) := (← graph).createRecord .undefined
    setGraph g
    let v ← watch m path (.showValue n r)
    changeForest (·.setValue n v.text)
    setGraph ((← graph).setRecord r v)
    changeForest fun f => .ok (f.listen n "input" (.input m path r))

def compileText (m : ModelId) (n : NodeId) (expression : String) : Compilation Unit := do
  if let some path ← resolve m (interpolationSource expression) expression then
    let v ← watch m path (.showText n)
    changeForest (·.setText n v.text)

/-- One attribute with a directive's name. A directive without an argument or a value binds nothing. -/
def compileDirective (m : ModelId) (n : NodeId) (name value : String) : Directive → Compilation Unit
  | .malformed => report (.missingArgument name)
  | directive =>
    if (trimmed value).isEmpty then report (.missingValue name)
    else match directive with
      | .on event => compileOn m n name event (trimmed value)
      | .bind a => compileBind m n name a value
      | _ => compileModel m n name value

/-- The attributes that an element has at the start, in order; directives are taken away, also when they fail. -/
def compileAttributes (m : ModelId) (n : NodeId) : List (String × String) → Compilation Unit
  | [] => return
  | (name, value) :: rest => do
    if let some directive := Directive.ofName? ((← graph).model m).options.legacyPrefixes name then
      try compileDirective m n name value directive
      finally changeForest fun f => .ok (f.removeAttribute n name)
    compileAttributes m n rest

def compileNode (m : ModelId) (n : NodeId) : Compilation Unit := do
  match (← graph).forest.content n with
  | .element _ attributes _ => compileAttributes m n attributes
  | .text content => if let some expression := firstExpression content then compileText m n expression
  | _ => return

def compileBelow (m : ModelId) : Nat → NodeId → Compilation Unit
  | 0, _ => return
  | depth + 1, n => do
    ((← graph).forest.children n).forM fun c => do
      compileNode m c
      compileBelow m depth c

end Compilation

namespace Graph

/-- Compiles what is under the selector of a compiler, once. The children of the root stand in a fragment while
they are compiled and go back in any case. -/
def init (g : Graph) (id : CompilerId) : Except Error Unit × Graph :=
  let c := g.compiler id
  if c.stage ≠ .pending then (.ok (), g)
  else match g.forest.query? c.document c.selector with
    | none =>
      let diagnostics := c.diagnostics ++ [.rootNotFound c.selector]
      (.ok (), g.setCompiler id { c with stage := .aborted, diagnostics })
    | some root =>
      let (fragment, forest) := g.forest.create .fragment
      let forest := forest.adoptAll fragment (forest.children root)
      let (result, p) := (Compilation.compileBelow c.model forest.size fragment).run.run
        { graph := { g with forest }, diagnostics := c.diagnostics }
      match p.graph.forest.append root fragment with
      | .error e =>
        (.error (.document e), p.graph.setCompiler id { c with watchers := p.watchers, diagnostics := p.diagnostics })
      | .ok forest =>
        let g := { p.graph with forest := forest.retain root }
        (result, g.setCompiler id
          { c with root := some root, watchers := p.watchers, diagnostics := p.diagnostics, stage := .compiled })

/-- Lets go of a compiler: its watchers and nodes are released, the listeners that it added stay. -/
def dropCompiler (g : Graph) (id : CompilerId) : Graph :=
  let c := g.compiler id
  let g := c.watchers.foldl Graph.release (g.setCompiler id { c with dropped := true })
  { g with forest := (c.document :: c.root.toList).foldl Forest.release g.forest }

end Graph

end DataBinding
