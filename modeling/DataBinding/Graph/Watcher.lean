import DataBinding.Graph.Store

namespace DataBinding.Graph

def evaluate (g : Graph) (s : SubscriberId) (w : Watcher) : Value × Graph :=
  g.readPath (some s) (g.model w.model).data w.path

def setWatched (g : Graph) (s : SubscriberId) (w : Watcher) (v : Value) : Graph :=
  g.modifySubscriber s ({ · with role := .watch { w with value := v } })

def createWatcher (g : Graph) (m : ModelId) (path : Path) (reaction : Reaction) : SubscriberId × Graph :=
  let w : Watcher := { model := m, path, policy := (g.model m).options.changeDetection, reaction }
  let (s, g) := g.createSubscriber none (.watch w)
  let g := match reaction.target? with
    | some n => { g with forest := g.forest.retain n }
    | none => g
  let (v, g) := g.evaluate s w
  (s, g.setWatched s w v)

/-- Evaluates a watcher again. A changed value is held from now on and reported with the one before. -/
def refresh (g : Graph) (s : SubscriberId) (w : Watcher) : Option (Value × Value) × Graph :=
  let (v, g) := g.evaluate s w
  if w.policy.same v w.value then (none, g) else (some (v, w.value), g.setWatched s w v)

def present (g : Graph) (v : Value) : Reaction → Except DocumentError Graph
  | .call _ => .ok g
  | .showText n => return { g with forest := ← g.forest.setText n v.text }
  | .showAttribute n name => return { g with forest := ← g.forest.setAttribute n name v.text }
  | .showValue n r => return { g.setRecord r v with forest := ← g.forest.setValue n v.text }

end DataBinding.Graph
