import DataBinding.Graph.Basic

/-!
Registries: who is told when a property changes. A registry does not keep its subscribers; those that are gone
stay listed until the next notification.
-/

namespace DataBinding.Graph

def readers (g : Graph) : RegistryRef → List SubscriberId
  | .property s key => (((g.store s).properties.get? key).map Property.readers).getD []
  | .free r => g.registries.get r.index

def setReaders (g : Graph) (readers : List SubscriberId) : RegistryRef → Graph
  | .property s key => g.modifyStore s fun d => match d.properties.get? key with
    | some p => ⟨d.properties.set key { p with readers }⟩
    | none => d
  | .free r => { g with registries := g.registries.modify r.index fun _ => readers }

@[simp] theorem subscribers_setReaders (g : Graph) (readers : List SubscriberId) (r : RegistryRef) :
    (g.setReaders readers r).subscribers = g.subscribers := by cases r <;> rfl

@[simp] theorem models_setReaders (g : Graph) (readers : List SubscriberId) (r : RegistryRef) :
    (g.setReaders readers r).models = g.models := by cases r <;> rfl

@[simp] theorem records_setReaders (g : Graph) (readers : List SubscriberId) (r : RegistryRef) :
    (g.setReaders readers r).records = g.records := by cases r <;> rfl

@[simp] theorem forest_setReaders (g : Graph) (readers : List SubscriberId) (r : RegistryRef) :
    (g.setReaders readers r).forest = g.forest := by cases r <;> rfl

@[simp] theorem compilers_setReaders (g : Graph) (readers : List SubscriberId) (r : RegistryRef) :
    (g.setReaders readers r).compilers = g.compilers := by cases r <;> rfl

def createRegistry (g : Graph) : RegistryId × Graph :=
  (⟨g.registries.size⟩, { g with registries := g.registries.add [] })

def identity (g : Graph) (s : SubscriberId) : SubscriberId := (g.subscriber s).identity

def lists (g : Graph) (r : RegistryRef) (identity : SubscriberId) : Bool :=
  (g.readers r).any fun s => g.identity s = identity

/-- Adds a subscriber at the end, unless its identity is listed already. -/
def register (g : Graph) (r : RegistryRef) (s : SubscriberId) : Graph :=
  if g.lists r (g.identity s) then g else g.setReaders (g.readers r ++ [s]) r

def live (g : Graph) (r : RegistryRef) : List SubscriberId := (g.readers r).filter g.alive

def prune (g : Graph) (r : RegistryRef) : Graph := g.setReaders (g.live r) r

/-- A subscriber of its own identity, or one that shares the identity of another. -/
def createSubscriber (g : Graph) (identity : Option SubscriberId) (role : Role) : SubscriberId × Graph :=
  let s : SubscriberId := ⟨g.subscribers.size⟩
  (s, { g with subscribers := g.subscribers.add ⟨identity.getD s, 1, role⟩ })

@[simp] theorem subscriber_createSubscriber (g : Graph) (i : Option SubscriberId) (role : Role) (t : SubscriberId) :
    (g.createSubscriber i role).2.subscriber t =
      if t.index = g.subscribers.size then ⟨i.getD ⟨g.subscribers.size⟩, 1, role⟩ else g.subscriber t :=
  Table.get_add _ _ _

def retain (g : Graph) (s : SubscriberId) : Graph :=
  g.modifySubscriber s fun d => { d with holders := d.holders + 1 }

def keptNode? (g : Graph) (s : SubscriberId) : Option NodeId :=
  (g.watcher? s).bind fun w => w.reaction.target?

/-- Gives up one hold. With the last one the subscriber is gone and lets go of its node. -/
def release (g : Graph) (s : SubscriberId) : Graph :=
  let released := g.modifySubscriber s fun d => { d with holders := d.holders - 1 }
  if (g.subscriber s).holders = 1 then
    match g.keptNode? s with
    | some n => { released with forest := released.forest.release n }
    | none => released
  else released

end DataBinding.Graph
