import DataBinding.Graph.Snapshot
import DataBinding.Graph.Watcher
import DataBinding.Text.Quoted

namespace DataBinding.Inspection

open Text (quote)

def list (items : List String) : String := "[" ++ ", ".intercalate items ++ "]"

def fields (items : List (String × String)) : List String := items.map fun (name, text) => name ++ ": " ++ text

def record (name : String) (items : List (String × String)) : String :=
  name ++ " \x7b " ++ ", ".intercalate (fields items) ++ " \x7d"

def map (items : List (String × String)) : String :=
  "\x7b" ++ ", ".intercalate (fields (items.map fun (key, text) => (quote key, text))) ++ "\x7d"

def call (name text : String) : String := name ++ "(" ++ text ++ ")"

def option : Option String → String
  | none => "None"
  | some text => call "Some" text

def boolean (b : Bool) : String := if b then "true" else "false"

def numberStyle : NumberStyle := ⟨"inf", "-0"⟩

mutual

def snapshot : Snapshot → String
  | .undefined => "Undefined"
  | .null => "Null"
  | .bool b => call "Bool" (boolean b)
  | .number x => call "Number" (x.text numberStyle)
  | .string s => call "String" (quote s)
  | .array items => list (snapshotItems items)
  | .object fields => map (snapshotFields fields)

def snapshotItems : List Snapshot → List String
  | [] => []
  | v :: vs => snapshot v :: snapshotItems vs

def snapshotFields : List (String × Snapshot) → List (String × String)
  | [] => []
  | (key, v) :: rest => (key, snapshot v) :: snapshotFields rest

end

def path (p : Path) : String := call "Path" p.text

def selector (s : Selector) : String :=
  record "Selector"
    [("tag", option (s.tag.map quote)), ("id", option (s.id.map quote)), ("classes", list (s.classes.map quote))]

def changeDetection : ChangeDetection → String
  | .strict => "Strict"
  | .loose => "Loose"

def options (o : Options) : String :=
  record "Options"
    [("change_detection", changeDetection o.changeDetection), ("strict_directives", boolean o.strictDirectives),
      ("legacy_prefixes", boolean o.legacyPrefixes)]

def diagnostic (d : Diagnostic) : String :=
  record "Diagnostic" [("kind", d.kind), ("source", option (d.source.map quote)), ("message", quote d.message)]

def stage : Stage → String
  | .pending => "Pending"
  | .compiled => "Compiled"
  | .aborted => "Aborted"

def context (reader : Option SubscriberId) : String :=
  record "EvalContext" [("subscriber", option (reader.map fun _ => "ID"))]

def store (g : Graph) (s : StoreId) : String := snapshot (g.snapshotStore s)

def registry (g : Graph) (r : RegistryRef) : String :=
  record "Dep" [("subscriber_count", (g.live r).length.repr)]

def model (g : Graph) (m : ModelId) : String :=
  let d := g.model m
  record "ViewModel"
    [("data", store g d.data), ("methods", list (d.methods.names.map quote)), ("options", options d.options)]

def watcher (g : Graph) (w : Watcher) : String :=
  record "Watcher" [("id", "ID"), ("expression", path w.path), ("value", snapshot (g.snapshot w.value))]

def node (g : Graph) (n : NodeId) : String :=
  match g.forest.content n with
  | .text content => call "Text" (quote content)
  | content =>
    let attributes := content.attributes.map fun (name, value) => "(" ++ quote name ++ ", " ++ quote value ++ ")"
    record "Node"
      [("tag", quote content.tag), ("attributes", list attributes),
        ("children", (g.forest.children n).length.repr)]

def document (g : Graph) (root : NodeId) : String := call "Document" (quote (g.forest.innerMarkup root))

def compiler (g : Graph) (c : CompilerId) : String :=
  let d := g.compiler c
  record "Compiler"
    [("selector", quote d.selector), ("state", stage d.stage), ("watchers", d.watchers.length.repr),
      ("diagnostics", list (d.diagnostics.map diagnostic))]

end DataBinding.Inspection
