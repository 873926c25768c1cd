import DataBinding.Engine.Basic
import DataBinding.Graph.Snapshot

namespace DataBinding.Script

inductive Report where
  | none
  | flag (b : Bool)
  | count (n : Nat)
  | text (s : String)
  | value (v : Snapshot)
  | json (j : Json)
  | error (e : Error)
  | list (items : List Report)
  | fields (items : List (String × Report))

namespace Report

def ofOption {α : Type} (f : α → Report) : Option α → Report
  | Option.none => .none
  | some a => f a

def texts (items : List String) : Report := .list (items.map .text)

def pairs (items : List (String × String)) : Report := .list (items.map fun (a, b) => texts [a, b])

def options (o : Options) : Report :=
  .fields [("change_detection", .text o.changeDetection.name), ("strict_directives", .flag o.strictDirectives),
    ("legacy_prefixes", .flag o.legacyPrefixes)]

def diagnostic (d : Diagnostic) : Report :=
  .list [.text d.kind, ofOption .text d.source, .text d.message, .text d.display]

def nodes (f : Forest) (n : NodeId) : Report :=
  .list ((f.descendants n).map fun (depth, c) => match f.content c with
    | .text content => .list [.count depth, .text "text", .text content]
    | content => .list [.count depth, .text content.tag, pairs content.attributes, .text content.value])

end Report

inductive Entry where
  | subscriber (name : String)
  | method (name : String) (event : Event)
  | watcher (name : String) (new old : Snapshot)
  | listener (name : String) (event : Event)
  | outcome (r : Except Error Report)

structure Shown where
  result : Except Error Report
  log : List Entry
  observed : List (Except Error Report)

end DataBinding.Script
