import DataBinding.Json.Basic

namespace DataBinding.Script

inductive Template where
  | json (j : Json)
  | undefined
  | number (x : Double)
  | store (name : String)
  | event
  | new
  | old
  | array (items : List Template)
  | object (fields : List (String × Template))
  deriving Inhabited

inductive NodeName where
  | named (name : String)
  | selected (document selector : String)

inductive ReaderName where
  | nobody
  | subscriber (name : String)
  | context (name : String)

inductive NodeSource where
  | root (document : String)
  | element (tag : String) (document : Option String)
  | text (content : String) (document : Option String)
  | fragment (document : Option String)
  | query (document selector : String)
  | nodeQuery (node : NodeName) (selector : String)
  | parent (node : NodeName)
  | firstChild (node : NodeName)
  | child (node : NodeName) (index : Nat)

inductive Subject where
  | store (name : String)
  | model (name : String)
  | document (name : String)
  | node (name : NodeName)
  | registry (name : String)
  | compiler (name : String)
  | watcher (name : String)
  | context (reader : ReaderName)

inductive Holding where
  | subscriber
  | watcher
  | compiler
  | store
  | node

mutual

inductive Action where
  | store (as : String) (data : Json)
  | storeNew (as : String)
  | storeFrom (as : String) (pairs : List (String × Template))
  | storeAt (as store key : String)
  | get (store key : String) (reader : ReaderName)
  | getUntracked (store key : String)
  | set (store key : String) (value : Template)
  | getPath (store path : String) (reader : ReaderName)
  | setPath (store path : String) (value : Template)
  | hasPath (store path : String)
  | containsKey (store key : String)
  | keys (store : String)
  | readerCount (store key : String)
  | readerCounts (store : String)
  | json (store : String)
  | sameStore (a b : String)
  | subscriber (as : String) (body : List Step) (sharing : Option String)
  | context (as subscriber : String)
  | contextInfo (reader : ReaderName) (identity : Option String)
  | registry (as : String)
  | registryOf (as store key : String)
  | register (registry subscriber : String)
  | notify (registry : String)
  | registryInfo (registry : String) (identities : List String)
  | model (as store : String) (methods : List (String × List Step)) (options : Option Json)
  | modelGet (model path : String)
  | modelSet (model path : String) (value : Template)
  | modelAdd (model path : String) (amount : Double)
  | modelCall (model method event : String) (value : Option String)
  | modelInfo (model : String) (names : List String)
  | sameModel (a b : String)
  | watcher (as model expression : String) (body : List Step)
  | runWatcher (watcher : String)
  | watcherInfo (watcher model : String)
  | document (as : String) (markup : Option String)
  | markup (document : String)
  | bindNode (as : String) (source : NodeSource)
  | append (node child : NodeName)
  | sameNode (a b : NodeName)
  | dump (node : NodeName)
  | nodeInfo (node : NodeName)
  | getAttribute (node : NodeName) (name : String)
  | setAttribute (node : NodeName) (name value : String)
  | removeAttribute (node : NodeName) (name : String)
  | setText (node : NodeName) (text : String)
  | getText (node : NodeName)
  | setValue (node : NodeName) (value : String)
  | getValue (node : NodeName)
  | listen (node : NodeName) (event name : String) (body : List Step)
  | dispatch (node : NodeName) (event : String) (value : Option String)
  | input (node : NodeName) (value : String)
  | click (node : NodeName)
  | listenerCount (node : NodeName) (event : String)
  | compiler (as document selector model : String)
  | init (compiler : String)
  | mount (as document selector model : String)
  | compilerInfo (compiler model : String)
  | fail (event message : String)
  | whenBelow (model path : String) (limit : Double) (body : List Step)
  | drop (kind : Holding) (name : String)
  | inspect (subject : Subject)

inductive Step where
  | mk (log : Bool) (action : Action)

end

def Step.log : Step → Bool
  | .mk log _ => log

def Step.action : Step → Action
  | .mk _ action => action

end DataBinding.Script
