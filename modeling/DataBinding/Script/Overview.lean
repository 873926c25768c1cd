import DataBinding.Inspection
import DataBinding.Script.Session

namespace DataBinding.Script.Run

def storeInfo (g : Graph) (s : StoreId) : Report :=
  let keys := g.keys s
  .fields [("keys", .texts keys), ("len", .count keys.length), ("empty", .flag keys.isEmpty)]

def registryInfo (g : Graph) (r : RegistryRef) (identities : List SubscriberId) : Report :=
  let count := (g.live r).length
  .fields [("len", .count count), ("empty", .flag (count == 0)),
    ("contains", .list (identities.map fun i => .flag (g.lists r i)))]

def modelInfo (g : Graph) (m : ModelId) (names : List String) : Report :=
  let d := g.model m
  .fields [("methods", .texts d.methods.names), ("options", .options d.options),
    ("has", .list (names.map fun name =>
      .list [.flag (d.methods.contains name), .flag (d.methods.get? name).isSome]))]

def watcherInfo (g : Graph) (m : ModelId) (w : Watcher) : Report :=
  .fields [("expr", .text w.path.text), ("value", .value (g.snapshot w.value)), ("vm", .flag (w.model = m))]

def nodeInfo (f : Forest) (n : NodeId) : Report :=
  let content := f.content n
  let children := f.children n
  .fields [("kind", .text content.kind), ("tag", .text content.tag), ("attrs", .pairs content.attributes),
    ("text", .text (f.text n)), ("value", .text content.value), ("children", .count children.length),
    ("has_children", .flag !children.isEmpty),
    ("parent", .ofOption (fun p => .text (f.content p).tag) (f.parent? n)),
    ("outer", .text (f.markup n)), ("inner", .text (f.innerMarkup n))]

def compilerInfo (g : Graph) (c : Compiler) (m : ModelId) : Report :=
  .fields [("compiled", .flag (c.stage = .compiled)), ("selector", .text c.selector),
    ("root", .ofOption (fun n => .text (g.forest.markup n)) c.root),
    ("diagnostics", .list (c.diagnostics.map .diagnostic)),
    ("watchers", .list ((c.watchers.filterMap g.watcher?).map fun w =>
      .list [.text w.path.text, .value (g.snapshot w.value)])),
    ("vm", .flag (c.model = m))]

def inspect : Subject → Run String
  | .store name => do
    let s ← find Session.stores name
    return Inspection.store (← graph) s
  | .model name => do
    let m ← find Session.models name
    return Inspection.model (← graph) m
  | .document name => do
    let root ← find Session.documents name
    return Inspection.document (← graph) root
  | .node name => do
    let n ← node name
    return Inspection.node (← graph) n
  | .registry name => do
    let r ← find Session.registries name
    return Inspection.registry (← graph) r
  | .compiler name => do
    let c ← find Session.compilers name
    return Inspection.compiler (← graph) c
  | .watcher name => do
    let s ← find Session.watchers name
    let g ← graph
    return ((g.watcher? s).map (Inspection.watcher g)).getD ""
  | .context r => return Inspection.context (← reader r)

end DataBinding.Script.Run
