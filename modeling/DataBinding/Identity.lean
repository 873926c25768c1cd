/-!
Identities. Two things with the same content are still two, so stores, nodes and subscribers are named by number.
-/

namespace DataBinding

structure StoreId where
  index : Nat
  deriving DecidableEq, Inhabited

structure RegistryId where
  index : Nat
  deriving DecidableEq, Inhabited

structure SubscriberId where
  index : Nat
  deriving DecidableEq, Inhabited

structure ModelId where
  index : Nat
  deriving DecidableEq, Inhabited

structure NodeId where
  index : Nat
  deriving DecidableEq, Inhabited

/-- The place where a model binding records the value last seen on either side. -/
structure RecordId where
  index : Nat
  deriving DecidableEq, Inhabited

structure CompilerId where
  index : Nat
  deriving DecidableEq, Inhabited

/-- Code of the environment, which the engine asks to have run. -/
structure CallbackId where
  index : Nat
  deriving DecidableEq, Inhabited

end DataBinding
