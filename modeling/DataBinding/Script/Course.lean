import DataBinding.Json.Printer
import DataBinding.Script.Overview

namespace DataBinding.Script

/-- How a step goes on: it has a report already, the engine has started work for it, or it runs further steps. -/
inductive Course where
  | done (r : Report)
  | started
  | within (body : List Step)

namespace Course

def nothing : Course := .done .none

def flag (b : Bool) : Course := .done (.flag b)

end Course

namespace Run

def nodeOf : NodeSource → Run (Option NodeId)
  | .root document => return some (← find Session.documents document)
  | .element tag document => do
    for d in document do let _ ← find Session.documents d
    return some (← createNode (·.createElement tag))
  | .text content document => do
    for d in document do let _ ← find Session.documents d
    return some (← createNode (·.create (.text content)))
  | .fragment document => do
    for d in document do let _ ← find Session.documents d
    return some (← createNode (·.create .fragment))
  | .query document selector => do
    let root ← find Session.documents document
    return (← graph).forest.query? root selector
  | .nodeQuery n selector => do
    let n ← node n
    let s ← ofDocument (Selector.parse selector)
    return (← graph).forest.find? s n
  | .parent n => do
    let n ← node n
    return (← graph).forest.parent? n
  | .firstChild n => do
    let n ← node n
    return ((← graph).forest.children n).head?
  | .child n index => do
    let n ← node n
    return ((← graph).forest.children n)[index]?

def options : Option Json → Run Options
  | none => return {}
  | some j => match Options.read? j.render with
    | some o => return o
    | none => throw .configuration

def methods : List (String × List Step) → Run (List (String × CallbackId))
  | [] => return []
  | (name, body) :: rest => do return (name, ← addCallback (.method name) body) :: (← methods rest)

def ofGraph {α : Type} (change : Graph → Except Error α × Graph) : Run α := do
  let (r, g) := change (← graph)
  modifyGraph fun _ => g
  match r with
  | .ok a => return a
  | .error e => throw e

def drop : Holding → String → Run Bool
  | .subscriber, name => dropSubscriber name
  | .watcher, name => dropWatcher name
  | .compiler, name => dropCompiler name
  | .store, name => dropStore name
  | .node, name => dropNode name

def mount (c : CompilerId) : Run Unit := do
  try ofGraph (·.init c)
  catch e =>
    modifyGraph (·.dropCompiler c)
    throw e

def newCompiler (document selector model : String) : Run CompilerId := do
  let document ← find Session.documents document
  let model ← find Session.models model
  create (·.createCompiler { document, selector, model })

def isBelow (limit : Double) : Value → Bool
  | .number x => x.below limit
  | _ => false

def start (scope : Scope) : Action → Run Course
  | .store as data => do
    match data with
    | .object _ =>
      if let .object s ← create (·.ofJson data) then nameStore as s
      return .flag true
    | _ => return .flag false
  | .storeNew as => do
    nameStore as (← create (·.createStore []))
    return .nothing
  | .storeFrom as pairs => do
    let stores := (← get).stores
    let pairs ← create fun g => Template.buildFields stores scope g pairs
    nameStore as (← create (·.createStore pairs))
    return .nothing
  | .storeAt as store key => do
    let s ← find Session.stores store
    match (← graph).peek s key with
    | .object t =>
      nameStore as t
      return .flag true
    | _ => return .flag false
  | .get store key r => do
    let s ← find Session.stores store
    let r ← reader r
    return .done (← snapshot (← create (·.read r s key)))
  | .getUntracked store key => do
    let s ← find Session.stores store
    return .done (← snapshot ((← graph).peek s key))
  | .set store key value => do
    let s ← find Session.stores store
    let v ← build scope value
    modifyEngine (·.write s key v)
    return .started
  | .getPath store raw r => do
    let s ← find Session.stores store
    let p ← path raw
    let r ← reader r
    return .done (← snapshot (← create (·.readPath r s p)))
  | .setPath store raw value => do
    let s ← find Session.stores store
    let p ← path raw
    let v ← build scope value
    modifyEngine (·.writePath s p v)
    return .started
  | .hasPath store raw => do
    let s ← find Session.stores store
    let p ← path raw
    return .flag ((← graph).hasPath s p)
  | .containsKey store key => do
    let s ← find Session.stores store
    return .flag ((← graph).hasKey s key)
  | .keys store => do
    let s ← find Session.stores store
    return .done (storeInfo (← graph) s)
  | .readerCount store key => do
    let s ← find Session.stores store
    return .done (.count ((← graph).readerCount s key))
  | .readerCounts store => do
    let s ← find Session.stores store
    let g ← graph
    return .done (.list ((g.keys s).map fun key => .list [.text key, .count (g.readerCount s key)]))
  | .json store => do
    let s ← find Session.stores store
    return .done (.json ((← graph).toJson (.object s)))
  | .sameStore a b => do
    let a ← find Session.stores a
    let b ← find Session.stores b
    return .flag (a = b)
  | .subscriber as body sharing => do
    let identity ← sharing.mapM (find Session.identities)
    let callback ← addCallback (.subscriber as) body
    nameSubscriber as (← create (·.createSubscriber identity (.call callback)))
    return .nothing
  | .context as subscriber => do
    nameContext as (← find Session.subscribers subscriber)
    return .nothing
  | .contextInfo r identity => do
    let r ← reader r
    let identities := (← get).identities
    let g ← graph
    let matched := match r, identity.bind identities.get? with
      | some s, some i => decide (g.identity s = i)
      | _, _ => false
    return .done (.fields [("tracking", .flag r.isSome), ("has_id", .flag r.isSome), ("id_matches", .flag matched)])
  | .registry as => do
    nameRegistry as (.free (← create (·.createRegistry)))
    return .nothing
  | .registryOf as store key => do
    let s ← find Session.stores store
    if (← graph).hasKey s key then
      nameRegistry as (.property s key)
      return .flag true
    else return .flag false
  | .register registry subscriber => do
    let r ← find Session.registries registry
    let s ← find Session.subscribers subscriber
    let g ← graph
    let listed := g.lists r (g.identity s)
    modifyGraph (·.register r s)
    return .flag !listed
  | .notify registry => do
    let r ← find Session.registries registry
    modifyEngine (·.notify r)
    return .started
  | .registryInfo registry names => do
    let r ← find Session.registries registry
    let identities := names.filterMap (← get).identities.get?
    return .done (registryInfo (← graph) r identities)
  | .model as store methodBodies optionData => do
    let data ← find Session.stores store
    let options ← options optionData
    let methods ← methods methodBodies
    nameModel as (← create (·.createModel ⟨data, Fields.ofPairs methods, options⟩))
    return .nothing
  | .modelGet model raw => do
    let m ← find Session.models model
    let p ← path raw
    let g ← graph
    return .done (← snapshot (g.valueAt (g.model m).data p))
  | .modelSet model raw value => do
    let m ← find Session.models model
    let v ← build scope value
    let p ← path raw
    modifyEngine fun e => e.writePath (e.graph.model m).data p v
    return .started
  | .modelAdd model raw amount => do
    let m ← find Session.models model
    let p ← path raw
    modifyEngine fun e =>
      let data := (e.graph.model m).data
      let x := match e.graph.valueAt data p with
        | .number x => x
        | _ => .zero
      e.writePath data p (.number (x.add amount))
    return .started
  | .modelCall model method event value => do
    let m ← find Session.models model
    modifyEngine (·.call m method ⟨event, value⟩)
    return .started
  | .modelInfo model names => do
    let m ← find Session.models model
    return .done (modelInfo (← graph) m names)
  | .sameModel a b => do
    let a ← find Session.models a
    let b ← find Session.models b
    return .flag (a = b)
  | .watcher as model expression body => do
    let m ← find Session.models model
    let p ← path expression
    let callback ← addCallback (.watcher as) body
    let s ← create (·.createWatcher m p (.call callback))
    nameWatcher as s
    return .done (← snapshot ((((← graph).watcher? s).map Watcher.value).getD .undefined))
  | .runWatcher watcher => do
    let s ← find Session.watchers watcher
    modifyEngine (·.run s)
    return .started
  | .watcherInfo watcher model => do
    let s ← find Session.watchers watcher
    let m ← find Session.models model
    let g ← graph
    return .done (.ofOption (watcherInfo g m) (g.watcher? s))
  | .document as markup => do
    let trees ← match markup with
      | some text => ofDocument (Markup.read text)
      | none => pure []
    nameDocument as (← createNode (·.createDocument trees))
    return .nothing
  | .markup document => do
    let root ← find Session.documents document
    return .done (.text ((← graph).forest.innerMarkup root))
  | .bindNode as source => do
    return .done (← nameNode as (← nodeOf source))
  | .append n child => do
    let p ← node n
    let c ← node child
    tryForest (·.append p c)
    return .nothing
  | .sameNode a b => do
    let a ← node a
    let b ← node b
    return .flag (a = b)
  | .dump n => do
    let n ← node n
    return .done (.nodes (← graph).forest n)
  | .nodeInfo n => do
    let n ← node n
    return .done (nodeInfo (← graph).forest n)
  | .getAttribute n name => do
    let n ← node n
    return .done (.ofOption .text (((← graph).forest.content n).attributes.get? name))
  | .setAttribute n name value => do
    let n ← node n
    tryForest (·.setAttribute n name value)
    return .nothing
  | .removeAttribute n name => do
    let n ← node n
    modifyForest (·.removeAttribute n name)
    return .nothing
  | .setText n text => do
    let n ← node n
    tryForest (·.setText n text)
    return .nothing
  | .getText n => do
    let n ← node n
    return .done (.text ((← graph).forest.text n))
  | .setValue n value => do
    let n ← node n
    tryForest (·.setValue n value)
    return .nothing
  | .getValue n => do
    let n ← node n
    return .done (.text ((← graph).forest.content n).value)
  | .listen n event name body => do
    let n ← node n
    let callback ← addCallback (.listener name) body
    modifyForest (·.listen n event (.call callback))
    return .nothing
  | .dispatch n event value => do
    let n ← node n
    modifyEngine (·.dispatch n ⟨event, value⟩)
    return .started
  | .input n value => do
    let n ← node n
    modifyEngine (·.input n value)
    return .started
  | .click n => do
    let n ← node n
    modifyEngine (·.dispatch n ⟨"click", none⟩)
    return .started
  | .listenerCount n event => do
    let n ← node n
    return .done (.count ((← graph).forest.listeners n event).length)
  | .compiler as document selector model => do
    nameCompiler as (← newCompiler document selector model)
    return .nothing
  | .init compiler => do
    let c ← find Session.compilers compiler
    ofGraph (·.init c)
    return .nothing
  | .mount as document selector model => do
    let c ← newCompiler document selector model
    mount c
    nameCompiler as c
    return .nothing
  | .compilerInfo compiler model => do
    let c ← find Session.compilers compiler
    let m ← find Session.models model
    let g ← graph
    return .done (compilerInfo g (g.compiler c) m)
  | .fail event message => throw (.failedListener event message)
  | .whenBelow model raw limit body => do
    let m ← find Session.models model
    let p ← path raw
    let g ← graph
    if isBelow limit (g.valueAt (g.model m).data p) then return .within body else return .flag false
  | .drop kind name => return .flag (← drop kind name)
  | .inspect subject => return .done (.text (← inspect subject))

end Run

end DataBinding.Script
