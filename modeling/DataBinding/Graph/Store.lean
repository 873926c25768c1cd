import DataBinding.Graph.Registry

namespace DataBinding.Graph

def createStore (g : Graph) (pairs : List (String × Value)) : StoreId × Graph :=
  (⟨g.stores.size⟩,
    { g with stores := g.stores.add ⟨Fields.ofPairs (pairs.map fun (key, v) => (key, { value := v }))⟩ })

@[simp] theorem store_createStore (g : Graph) (pairs : List (String × Value)) (s : StoreId) :
    (g.createStore pairs).2.store s =
      if s.index = g.stores.size then ⟨Fields.ofPairs (pairs.map fun (key, v) => (key, { value := v }))⟩
      else g.store s := Table.get_add _ _ _

@[simp] theorem size_createStore (g : Graph) (pairs : List (String × Value)) :
    (g.createStore pairs).2.stores.size = g.stores.size + 1 := Table.size_add _ _

def property? (g : Graph) (s : StoreId) (key : String) : Option Value :=
  ((g.store s).properties.get? key).map Property.value

def peek (g : Graph) (s : StoreId) (key : String) : Value := (g.property? s key).getD .undefined

/-- Registers a reader with a property, if there is a reader and the property exists. -/
def track (g : Graph) (reader : Option SubscriberId) (s : StoreId) (key : String) : Graph :=
  match reader, g.property? s key with
  | some r, some _ => g.register (.property s key) r
  | _, _ => g

def read (g : Graph) (reader : Option SubscriberId) (s : StoreId) (key : String) : Value × Graph :=
  (g.peek s key, g.track reader s key)

/-- Reads along the parents of a path and then its last key. Past a value that is no object there is nothing. -/
def readAlong (g : Graph) (reader : Option SubscriberId) (s : StoreId) (last : String) :
    List String → Value × Graph
  | [] => g.read reader s last
  | key :: keys => match g.read reader s key with
    | (.object next, g) => g.readAlong reader next last keys
    | (_, g) => (.undefined, g)

def readPath (g : Graph) (reader : Option SubscriberId) (s : StoreId) (path : Path) : Value × Graph :=
  g.readAlong reader s path.last path.parents

def valueAt (g : Graph) (s : StoreId) (path : Path) : Value := (g.readPath none s path).1

def walk? (g : Graph) (s : StoreId) : List String → Option StoreId
  | [] => some s
  | key :: keys => match g.peek s key with
    | .object next => g.walk? next keys
    | _ => none

def hasKey (g : Graph) (s : StoreId) (key : String) : Bool := (g.store s).properties.contains key

def hasPath (g : Graph) (s : StoreId) (path : Path) : Bool :=
  (g.walk? s path.parents).any fun t => g.hasKey t path.last

/-- Puts a value into a property, which is created if it is missing. Its readers stay. -/
def install (g : Graph) (s : StoreId) (key : String) (v : Value) : Graph :=
  g.modifyStore s fun d =>
    ⟨d.properties.set key { value := v, readers := ((d.properties.get? key).map Property.readers).getD [] }⟩

def keys (g : Graph) (s : StoreId) : List String := (g.store s).properties.names

def readerCount (g : Graph) (s : StoreId) (key : String) : Nat := (g.live (.property s key)).length

mutual

/-- The value of a JSON document. Every object in it becomes a store of its own, inner ones first. -/
def ofJson (g : Graph) : Json → Value × Graph
  | .null => (.null, g)
  | .bool b => (.bool b, g)
  | .integer i => (.number (.ofInt i), g)
  | .real x => (.number x, g)
  | .string s => (.string s, g)
  | .array items =>
    let (values, g) := ofJsonItems g items
    (.array values, g)
  | .object fields =>
    let (pairs, g) := ofJsonFields g fields
    let (s, g) := g.createStore pairs
    (.object s, g)

def ofJsonItems (g : Graph) : List Json → List Value × Graph
  | [] => ([], g)
  | j :: js =>
    let (v, g) := ofJson g j
    let (vs, g) := ofJsonItems g js
    (v :: vs, g)

def ofJsonFields (g : Graph) : List (String × Json) → List (String × Value) × Graph
  | [] => ([], g)
  | (key, j) :: rest =>
    let (v, g) := ofJson g j
    let (pairs, g) := ofJsonFields g rest
    ((key, v) :: pairs, g)

end

end DataBinding.Graph
