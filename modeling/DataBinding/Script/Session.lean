import DataBinding.Script.Report
import DataBinding.Script.Step

namespace DataBinding.Script

inductive Label where
  | subscriber (name : String)
  | method (name : String)
  | watcher (name : String)
  | listener (name : String)

structure Callback where
  label : Label
  body : List Step

instance : Inhabited Callback := ⟨⟨.subscriber "", []⟩⟩

structure Scope where
  event : Option Event := none
  change : Option (Value × Value) := none

/-- The names of one kind of thing do not meet those of another. A name for a subscriber, a watcher, a document,
a node or a compiler holds what it names. -/
structure Session where
  engine : Engine := {}
  callbacks : Table Callback := {}
  stores : Fields StoreId := []
  registries : Fields RegistryRef := []
  subscribers : Fields SubscriberId := []
  identities : Fields SubscriberId := []
  contexts : Fields SubscriberId := []
  models : Fields ModelId := []
  watchers : Fields SubscriberId := []
  documents : Fields NodeId := []
  nodes : Fields NodeId := []
  compilers : Fields CompilerId := []
  log : List Entry := []

abbrev Run (α : Type) := ExceptT Error (StateM Session) α

mutual

def Template.build (stores : Fields StoreId) (scope : Scope) (g : Graph) : Template → Value × Graph
  | .json j => g.ofJson j
  | .undefined => (.undefined, g)
  | .number x => (.number x, g)
  | .store name => (((stores.get? name).map Value.object).getD .undefined, g)
  | .event => (((scope.event.bind Event.value).map Value.string).getD .undefined, g)
  | .new => ((scope.change.map Prod.fst).getD .undefined, g)
  | .old => ((scope.change.map Prod.snd).getD .undefined, g)
  | .array items =>
    let (values, g) := buildItems stores scope g items
    (.array values, g)
  | .object fields =>
    let (pairs, g) := buildFields stores scope g fields
    let (s, g) := g.createStore pairs
    (.object s, g)

def Template.buildItems (stores : Fields StoreId) (scope : Scope) (g : Graph) :
    List Template → List Value × Graph
  | [] => ([], g)
  | t :: ts =>
    let (v, g) := t.build stores scope g
    let (vs, g) := buildItems stores scope g ts
    (v :: vs, g)

def Template.buildFields (stores : Fields StoreId) (scope : Scope) (g : Graph) :
    List (String × Template) → List (String × Value) × Graph
  | [] => ([], g)
  | (key, t) :: ts =>
    let (v, g) := t.build stores scope g
    let (pairs, g) := buildFields stores scope g ts
    ((key, v) :: pairs, g)

end

namespace Run

def missing (name : String) : Error := .failedListener "driver" ("no `" ++ name ++ "`")

def noSuchNode : Error := .failedListener "driver" "no such node"

def find {α : Type} (names : Session → Fields α) (name : String) : Run α := do
  match (names (← get)).get? name with
  | some a => return a
  | none => throw (missing name)

def graph : Run Graph := return (← get).engine.graph

def modifyEngine (change : Engine → Engine) : Run Unit := modify fun s => { s with engine := change s.engine }

def modifyGraph (change : Graph → Graph) : Run Unit := modifyEngine fun e => { e with graph := change e.graph }

def modifyForest (change : Forest → Forest) : Run Unit :=
  modifyGraph fun g => { g with forest := change g.forest }

def create {α : Type} (make : Graph → α × Graph) : Run α := do
  let (a, g) := make (← graph)
  modifyGraph fun _ => g
  return a

def createNode (make : Forest → NodeId × Forest) : Run NodeId :=
  create fun g =>
    let (n, forest) := make g.forest
    (n, { g with forest })

def ofDocument {α : Type} (r : Except DocumentError α) : Run α :=
  match r with
  | .ok a => return a
  | .error e => throw (.document e)

def tryForest (change : Forest → Except DocumentError Forest) : Run Unit := do
  let forest ← ofDocument (change (← graph).forest)
  modifyForest fun _ => forest

def record (e : Entry) : Run Unit := modify fun s => { s with log := s.log ++ [e] }

def addCallback (label : Label) (body : List Step) : Run CallbackId := do
  let id := ⟨(← get).callbacks.size⟩
  modify fun s => { s with callbacks := s.callbacks.add ⟨label, body⟩ }
  return id

def build (scope : Scope) (t : Template) : Run Value := do
  let stores := (← get).stores
  create (t.build stores scope)

def snapshot (v : Value) : Run Report := return .value ((← graph).snapshot v)

def path (raw : String) : Run Path :=
  match Path.parse raw with
  | .ok p => return p
  | .error e => throw e

def nameStore (name : String) (s : StoreId) : Run Unit :=
  modify fun d => { d with stores := d.stores.set name s }

def nameRegistry (name : String) (r : RegistryRef) : Run Unit :=
  modify fun d => { d with registries := d.registries.set name r }

def nameModel (name : String) (m : ModelId) : Run Unit :=
  modify fun d => { d with models := d.models.set name m }

def nameContext (name : String) (s : SubscriberId) : Run Unit :=
  modify fun d => { d with contexts := d.contexts.set name s }

def dropSubscriber (name : String) : Run Bool := do
  match (← get).subscribers.get? name with
  | none => return false
  | some s =>
    modify fun d => { d with subscribers := d.subscribers.erase name }
    modifyGraph (·.release s)
    return true

def dropWatcher (name : String) : Run Bool := do
  match (← get).watchers.get? name with
  | none => return false
  | some s =>
    modify fun d => { d with watchers := d.watchers.erase name }
    modifyGraph (·.release s)
    return true

def dropCompiler (name : String) : Run Bool := do
  match (← get).compilers.get? name with
  | none => return false
  | some c =>
    modify fun d => { d with compilers := d.compilers.erase name }
    modifyGraph (·.dropCompiler c)
    return true

def dropNode (name : String) : Run Bool := do
  match (← get).nodes.get? name with
  | none => return false
  | some n =>
    modify fun d => { d with nodes := d.nodes.erase name }
    modifyForest (·.release n)
    return true

def dropDocument (name : String) : Run Unit := do
  if let some n := (← get).documents.get? name then modifyForest (·.release n)

def dropStore (name : String) : Run Bool := do
  let found := (← get).stores.contains name
  modify fun d => { d with stores := d.stores.erase name }
  return found

def nameSubscriber (name : String) (s : SubscriberId) : Run Unit := do
  let _ ← dropSubscriber name
  let identity := (← graph).identity s
  modify fun d =>
    { d with subscribers := d.subscribers.set name s, identities := d.identities.set name identity }

def nameWatcher (name : String) (s : SubscriberId) : Run Unit := do
  let _ ← dropWatcher name
  modify fun d => { d with watchers := d.watchers.set name s }

def nameCompiler (name : String) (c : CompilerId) : Run Unit := do
  let _ ← dropCompiler name
  modify fun d => { d with compilers := d.compilers.set name c }

def nameDocument (name : String) (root : NodeId) : Run Unit := do
  modifyForest (·.retain root)
  dropDocument name
  modify fun d => { d with documents := d.documents.set name root }

def nameNode (name : String) : Option NodeId → Run Report
  | none => return .flag false
  | some n => do
    modifyForest (·.retain n)
    let _ ← dropNode name
    modify fun d => { d with nodes := d.nodes.set name n }
    return .flag true

def node : NodeName → Run NodeId
  | .named name => find Session.nodes name
  | .selected document selector => do
    let root ← find Session.documents document
    match (← graph).forest.query? root selector with
    | some n => return n
    | none => throw noSuchNode

def reader : ReaderName → Run (Option SubscriberId)
  | .nobody => return none
  | .subscriber name => return some (← find Session.subscribers name)
  | .context name => return some (← find Session.contexts name)

end Run

end DataBinding.Script
