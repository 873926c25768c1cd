import DataBinding.Graph.Store

namespace DataBinding

inductive Snapshot where
  | undefined
  | null
  | bool (b : Bool)
  | number (x : Double)
  | string (s : String)
  | array (items : List Snapshot)
  | object (fields : List (String × Snapshot))

mutual

def Value.unfold (object : StoreId → Snapshot) : Value → Snapshot
  | .undefined => .undefined
  | .null => .null
  | .bool b => .bool b
  | .number x => .number x
  | .string s => .string s
  | .array items => .array (unfoldItems object items)
  | .object s => object s

def Value.unfoldItems (object : StoreId → Snapshot) : List Value → List Snapshot
  | [] => []
  | v :: vs => v.unfold object :: unfoldItems object vs

end

namespace Graph

def storeWithin (g : Graph) : Nat → StoreId → Snapshot
  | 0, _ => .object []
  | depth + 1, s =>
    .object ((g.store s).properties.map fun (key, p) => (key, p.value.unfold (g.storeWithin depth)))

/-- A chain of different stores is no longer than there are stores. -/
def snapshotStore (g : Graph) (s : StoreId) : Snapshot := g.storeWithin g.stores.size s

def snapshot (g : Graph) (v : Value) : Snapshot := v.unfold g.snapshotStore

end Graph

mutual

/-- A snapshot as JSON. What JSON cannot tell is null. -/
def Snapshot.toJson : Snapshot → Json
  | .undefined | .null => .null
  | .bool b => .bool b
  | .number x => .ofDouble x
  | .string s => .string s
  | .array items => .array (toJsonItems items)
  | .object fields => .object (Fields.sorted (toJsonFields fields))

def Snapshot.toJsonItems : List Snapshot → List Json
  | [] => []
  | v :: vs => v.toJson :: toJsonItems vs

def Snapshot.toJsonFields : List (String × Snapshot) → List (String × Json)
  | [] => []
  | (key, v) :: rest => (key, v.toJson) :: toJsonFields rest

end

def Graph.toJson (g : Graph) (v : Value) : Json := (g.snapshot v).toJson

end DataBinding
