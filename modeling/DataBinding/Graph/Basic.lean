import DataBinding.Forest.Traversal
import DataBinding.Options
import DataBinding.Template.Diagnostic

namespace DataBinding

structure Property where
  value : Value
  readers : List SubscriberId := []

structure Store where
  properties : Fields Property := []
  deriving Inhabited

inductive RegistryRef where
  | property (store : StoreId) (key : String)
  | free (id : RegistryId)
  deriving DecidableEq

inductive Reaction where
  | call (callback : CallbackId)
  | showText (node : NodeId)
  | showAttribute (node : NodeId) (name : String)
  | showValue (node : NodeId) (record : RecordId)
  deriving DecidableEq

def Reaction.target? : Reaction → Option NodeId
  | .call _ => none
  | .showText n | .showAttribute n _ | .showValue n _ => some n

structure Watcher where
  model : ModelId
  path : Path
  policy : ChangeDetection
  value : Value := .undefined
  reaction : Reaction

inductive Role where
  | call (callback : CallbackId)
  | watch (watcher : Watcher)

/-- Registries tell subscribers apart by `identity`. A subscriber without holders is gone. -/
structure Subscriber where
  identity : SubscriberId
  holders : Nat
  role : Role

instance : Inhabited Subscriber := ⟨⟨default, 0, .call default⟩⟩

structure ViewModel where
  data : StoreId
  methods : Fields CallbackId
  options : Options

instance : Inhabited ViewModel := ⟨⟨default, [], {}⟩⟩

inductive Stage where
  | pending
  | compiled
  | aborted
  deriving DecidableEq

/-- The binding of the part of a document under a selector to a view-model. It holds the watchers it makes until
it is dropped. -/
structure Compiler where
  document : NodeId
  selector : String
  model : ModelId
  root : Option NodeId := none
  watchers : List SubscriberId := []
  diagnostics : List Diagnostic := []
  stage : Stage := .pending
  dropped : Bool := false

instance : Inhabited Compiler := ⟨{ document := default, selector := "", model := default }⟩

structure Graph where
  stores : Table Store := {}
  registries : Table (List SubscriberId) := {}
  subscribers : Table Subscriber := {}
  models : Table ViewModel := {}
  records : Table Value := {}
  forest : Forest := {}
  compilers : Table Compiler := {}

namespace Graph

def store (g : Graph) (s : StoreId) : Store := g.stores.get s.index

def subscriber (g : Graph) (s : SubscriberId) : Subscriber := g.subscribers.get s.index

def model (g : Graph) (m : ModelId) : ViewModel := g.models.get m.index

def record (g : Graph) (r : RecordId) : Value := g.records.get r.index

def compiler (g : Graph) (c : CompilerId) : Compiler := g.compilers.get c.index

def watcher? (g : Graph) (s : SubscriberId) : Option Watcher :=
  match (g.subscriber s).role with
  | .watch w => some w
  | .call _ => none

def alive (g : Graph) (s : SubscriberId) : Bool := 0 < (g.subscriber s).holders

def modifyStore (g : Graph) (s : StoreId) (change : Store → Store) : Graph :=
  { g with stores := g.stores.modify s.index change }

def modifySubscriber (g : Graph) (s : SubscriberId) (change : Subscriber → Subscriber) : Graph :=
  { g with subscribers := g.subscribers.modify s.index change }

def setRecord (g : Graph) (r : RecordId) (v : Value) : Graph :=
  { g with records := g.records.modify r.index fun _ => v }

def setCompiler (g : Graph) (c : CompilerId) (d : Compiler) : Graph :=
  { g with compilers := g.compilers.modify c.index fun _ => d }

def createRecord (g : Graph) (v : Value) : RecordId × Graph :=
  (⟨g.records.size⟩, { g with records := g.records.add v })

def createModel (g : Graph) (m : ViewModel) : ModelId × Graph :=
  (⟨g.models.size⟩, { g with models := g.models.add m })

def createCompiler (g : Graph) (c : Compiler) : CompilerId × Graph :=
  (⟨g.compilers.size⟩, { g with compilers := g.compilers.add c, forest := g.forest.retain c.document })

theorem store_of_size_le {g : Graph} {s : StoreId} (h : g.stores.size ≤ s.index) : g.store s = {} :=
  Table.get_of_size_le _ h

@[simp] theorem store_modifyStore (g : Graph) (s t : StoreId) (change : Store → Store) :
    (g.modifyStore s change).store t =
      if t = s ∧ s.index < g.stores.size then change (g.store t) else g.store t := by
  have same : t.index = s.index ↔ t = s := ⟨congrArg StoreId.mk, congrArg StoreId.index⟩
  exact (Table.get_modify _ _ _ _).trans (ite_congr (propext (and_congr_left' same)) (fun _ => rfl) fun _ => rfl)

@[simp] theorem subscriber_modifySubscriber (g : Graph) (s t : SubscriberId) (change : Subscriber → Subscriber) :
    (g.modifySubscriber s change).subscriber t =
      if t = s ∧ s.index < g.subscribers.size then change (g.subscriber t) else g.subscriber t := by
  have same : t.index = s.index ↔ t = s := ⟨congrArg SubscriberId.mk, congrArg SubscriberId.index⟩
  exact (Table.get_modify _ _ _ _).trans (ite_congr (propext (and_congr_left' same)) (fun _ => rfl) fun _ => rfl)

@[simp] theorem size_modifySubscriber (g : Graph) (s : SubscriberId) (change : Subscriber → Subscriber) :
    (g.modifySubscriber s change).subscribers.size = g.subscribers.size := Table.size_modify _ _ _

@[simp] theorem record_setRecord (g : Graph) (r r' : RecordId) (v : Value) :
    (g.setRecord r v).record r' = if r' = r ∧ r.index < g.records.size then v else g.record r' := by
  have same : r'.index = r.index ↔ r' = r := ⟨congrArg RecordId.mk, congrArg RecordId.index⟩
  exact (Table.get_modify _ _ _ _).trans (ite_congr (propext (and_congr_left' same)) (fun _ => rfl) fun _ => rfl)

@[simp] theorem size_setRecord (g : Graph) (r : RecordId) (v : Value) :
    (g.setRecord r v).records.size = g.records.size := Table.size_modify _ _ _

@[simp] theorem compiler_setCompiler (g : Graph) (c c' : CompilerId) (d : Compiler) :
    (g.setCompiler c d).compiler c' = if c' = c ∧ c.index < g.compilers.size then d else g.compiler c' := by
  have same : c'.index = c.index ↔ c' = c := ⟨congrArg CompilerId.mk, congrArg CompilerId.index⟩
  exact (Table.get_modify _ _ _ _).trans (ite_congr (propext (and_congr_left' same)) (fun _ => rfl) fun _ => rfl)

theorem compiler_of_modify {g g' : Graph} {c : CompilerId} {d : Compiler}
    (h : g'.compilers = g.compilers.modify c.index fun _ => d) (c' : CompilerId) :
    g'.compiler c' = if c' = c ∧ c.index < g.compilers.size then d else g.compiler c' := by
  rw [compiler, h]
  exact compiler_setCompiler g c c' d

@[simp] theorem size_setCompiler (g : Graph) (c : CompilerId) (d : Compiler) :
    (g.setCompiler c d).compilers.size = g.compilers.size := Table.size_modify _ _ _

@[simp] theorem setCompiler_compiler (g : Graph) (c : CompilerId) : g.setCompiler c (g.compiler c) = g := by
  simp [setCompiler, compiler]

@[simp] theorem forest_setCompiler (g : Graph) (c : CompilerId) (d : Compiler) :
    (g.setCompiler c d).forest = g.forest := rfl

@[simp] theorem subscribers_setCompiler (g : Graph) (c : CompilerId) (d : Compiler) :
    (g.setCompiler c d).subscribers = g.subscribers := rfl

@[simp] theorem compiler_createCompiler (g : Graph) (c : Compiler) (id : CompilerId) :
    (g.createCompiler c).2.compiler id = if id.index = g.compilers.size then c else g.compiler id :=
  Table.get_add _ _ _

@[simp] theorem size_createCompiler (g : Graph) (c : Compiler) :
    (g.createCompiler c).2.compilers.size = g.compilers.size + 1 := Table.size_add _ _

end Graph

end DataBinding
