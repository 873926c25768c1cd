import DataBinding.Proofs.GraphChanges
import DataBinding.Proofs.PlantedDocuments

/-!
Everything that goes by a number belongs to one side of a graph. What a side owns can be spliced into another graph,
and a change is local to the side if it stays within what the side owns and comes out the same after any splice.
-/

namespace DataBinding

namespace Table

theorem size_lt_add {α : Type} (t : Table α) (a : α) : t.size < (t.add a).size := by
  simp

theorem size_le_modify {α : Type} (t : Table α) (i : Nat) (f : α → α) : t.size ≤ (t.modify i f).size :=
  Nat.le_of_eq (size_modify ..).symm

variable {α : Type} [Inhabited α] {own : Nat → Bool} {t t' b : Table α} {i : Nat} {P Q : α → Prop}

def splice (own : Nat → Bool) (t b : Table α) : Table α :=
  ⟨Array.ofFn fun i : Fin t.size => if own i then t.get i else b.get i⟩

@[simp] theorem size_splice : (t.splice own b).size = t.size := Array.size_ofFn

theorem get_splice (i : Nat) :
    (t.splice own b).get i = if i < t.size then if own i then t.get i else b.get i else default := by
  rw [get, splice, Array.getD_eq_getD_getElem?]
  by_cases hi : i < t.size
  · simp [hi]
  · simp [hi]

@[simp] theorem get_splice_of_own (here : own i) : (t.splice own b).get i = t.get i := by
  rw [get_splice, if_pos here]
  split
  · rfl
  · next absent => rw [get_of_size_le _ (Nat.le_of_not_lt absent)]

theorem ext_get (size : t.size = t'.size) (get : ∀ i, i < t.size → t.get i = t'.get i) : t = t' := by
  obtain ⟨entries⟩ := t
  obtain ⟨entries'⟩ := t'
  congr 1
  apply Array.ext size
  intro i hi hi'
  have same := get i hi
  simp only [Table.get, Array.getD_eq_getD_getElem?, hi, hi', getElem?_pos, Option.getD_some] at same
  exact same

theorem splice_eq (size : t'.size = t.size) (ours : ∀ i, i < t.size → own i → t'.get i = t.get i)
    (theirs : ∀ i, i < t.size → own i = false → t'.get i = b.get i) : t' = t.splice own b := by
  apply ext_get (size.trans size_splice.symm)
  intro i hi
  rw [size] at hi
  rw [get_splice, if_pos hi]
  split
  · next here => exact ours i hi here
  · next other => exact theirs i hi (Bool.eq_false_iff.2 other)

theorem modify_splice (here : own i) (f : α → α) :
    (t.splice own b).modify i f = (t.modify i f).splice own b := by
  apply splice_eq
  · simp
  · intro j hj hown
    simp [hown]
  · intro j hj other
    rw [size_modify] at hj
    have ne : j ≠ i := by
      rintro rfl
      rw [here] at other
      cases other
    simp [ne, get_splice, hj, other]

theorem add_splice (here : own t.size) (a : α) : (t.splice own b).add a = (t.add a).splice own b := by
  apply splice_eq
  · simp
  · intro j hj hown
    simp [hown]
  · intro j hj other
    have ne : j ≠ t.size := by
      rintro rfl
      rw [here] at other
      cases other
    rw [size_add] at hj
    have hj : j < t.size := by omega
    simp [ne, get_splice, hj, other]

def Keeps (own : Nat → Bool) (P : α → Prop) (t : Table α) : Prop := ∀ i, own i → i < t.size → P (t.get i)

theorem Keeps.get (h : t.Keeps own P) (here : own i) (blank : P default) : P (t.get i) := by
  by_cases hi : i < t.size
  · exact h i here hi
  · rw [get_of_size_le _ (Nat.le_of_not_lt hi)]
    exact blank

theorem Keeps.mono (h : t.Keeps own P) (le : ∀ a, P a → Q a) : t.Keeps own Q := fun i here hi => le _ (h i here hi)

theorem Keeps.modify (h : t.Keeps own P) {f : α → α} (changed : P (f (t.get i))) : (t.modify i f).Keeps own P := by
  intro j here hj
  rw [size_modify] at hj
  rw [get_modify]
  split
  · next same => rwa [same.1]
  · exact h j here hj

theorem Keeps.add (h : t.Keeps own P) {a : α} (added : P a) : (t.add a).Keeps own P := by
  intro j here hj
  rw [get_add]
  split
  · exact added
  · rw [size_add] at hj
    exact h j here (by omega)

end Table

inductive Kind where
  | store
  | registry
  | subscriber
  | model
  | record
  | node
  | compiler
  deriving DecidableEq

abbrev Share := Kind → Nat → Bool

section Within

variable (P : Kind → Nat → Prop)

def Value.Within (v : Value) : Prop := ∀ s, v = .object s → P .store s.index

structure Property.Within (p : Property) : Prop where
  value : p.value.Within P
  readers : ∀ s ∈ p.readers, P .subscriber s.index

def Store.Within (d : Store) : Prop := ∀ key p, d.properties.get? key = some p → p.Within P

def RegistryRef.Within : RegistryRef → Prop
  | .property s _ => P .store s.index
  | .free r => P .registry r.index

def Reaction.Within : Reaction → Prop
  | .call _ => True
  | .showText n | .showAttribute n _ => P .node n.index
  | .showValue n r => P .node n.index ∧ P .record r.index

structure Watcher.Within (w : Watcher) : Prop where
  model : P .model w.model.index
  reaction : w.reaction.Within P

def Role.Within : Role → Prop
  | .call _ => True
  | .watch w => w.Within P

def Listener.Within : Listener → Prop
  | .input m _ r => P .model m.index ∧ P .record r.index
  | _ => True

structure Node.Within (d : Node) : Prop where
  parent : ∀ p, d.parent = some p → P .node p.index
  children : ∀ c ∈ d.children, P .node c.index
  listeners : ∀ x ∈ d.listeners, x.2.Within P

structure Compiler.Within (c : Compiler) : Prop where
  document : P .node c.document.index
  model : P .model c.model.index
  root : ∀ n, c.root = some n → P .node n.index
  watchers : ∀ s ∈ c.watchers, P .subscriber s.index

end Within

theorem Node.within_blank (P : Kind → Nat → Prop) (content : Content) : Node.Within P { content } :=
  ⟨nofun, fun _ mem => absurd mem List.not_mem_nil, fun _ mem => absurd mem List.not_mem_nil⟩

section mono

variable {P Q : Kind → Nat → Prop} (le : ∀ kind i, P kind i → Q kind i)
include le

theorem Value.Within.mono {v : Value} (h : v.Within P) : v.Within Q := fun s hs => le _ _ (h s hs)

theorem Store.Within.mono {d : Store} (h : d.Within P) : d.Within Q := fun key p hp =>
  ⟨(h key p hp).value.mono le, fun s hs => le _ _ ((h key p hp).readers s hs)⟩

theorem Reaction.Within.mono {reaction : Reaction} (h : reaction.Within P) : reaction.Within Q := by
  cases reaction with
  | call _ => trivial
  | showText n => exact le _ _ h
  | showAttribute n _ => exact le _ _ h
  | showValue n r => exact ⟨le _ _ h.1, le _ _ h.2⟩

theorem Role.Within.mono {role : Role} (h : role.Within P) : role.Within Q := by
  cases role with
  | call _ => trivial
  | watch w => exact ⟨le _ _ h.model, h.reaction.mono le⟩

theorem Listener.Within.mono {listener : Listener} (h : listener.Within P) : listener.Within Q := by
  cases listener with
  | input m _ r => exact ⟨le _ _ h.1, le _ _ h.2⟩
  | _ => trivial

theorem Node.Within.mono {d : Node} (h : d.Within P) : d.Within Q :=
  ⟨fun p hp => le _ _ (h.parent p hp), fun c hc => le _ _ (h.children c hc), fun x hx => (h.listeners x hx).mono le⟩

theorem Compiler.Within.mono {c : Compiler} (h : c.Within P) : c.Within Q :=
  ⟨le _ _ h.document, le _ _ h.model, fun n hn => le _ _ (h.root n hn), fun s hs => le _ _ (h.watchers s hs)⟩

end mono

namespace Graph

variable {S : Share} {g g' b : Graph} {P Q : Kind → Nat → Prop}

def count (g : Graph) : Kind → Nat
  | .store => g.stores.size
  | .registry => g.registries.size
  | .subscriber => g.subscribers.size
  | .model => g.models.size
  | .record => g.records.size
  | .node => g.forest.size
  | .compiler => g.compilers.size

def Larger (g g' : Graph) : Prop := ∀ kind, g.count kind ≤ g'.count kind

theorem Larger.refl (g : Graph) : g.Larger g := fun _ => Nat.le_refl _

theorem Larger.trans {g₁ g₂ g₃ : Graph} (h : g₁.Larger g₂) (h' : g₂.Larger g₃) : g₁.Larger g₃ := fun kind =>
  Nat.le_trans (h kind) (h' kind)

end Graph

def Share.Has (S : Share) (g : Graph) (kind : Kind) (i : Nat) : Prop := S kind i ∧ i < g.count kind

theorem Share.Has.mono {S : Share} {g g' : Graph} {kind : Kind} {i : Nat} (h : S.Has g kind i) (larger : g.Larger g') :
    S.Has g' kind i := ⟨h.1, Nat.lt_of_lt_of_le h.2 (larger kind)⟩

def Forest.splice (own : Nat → Bool) (f b : Forest) : Forest := ⟨f.nodes.splice own b.nodes⟩

namespace Graph

variable {S : Share} {g g' b : Graph} {P Q : Kind → Nat → Prop}

def splice (S : Share) (g b : Graph) : Graph where
  stores := g.stores.splice (S .store) b.stores
  registries := g.registries.splice (S .registry) b.registries
  subscribers := g.subscribers.splice (S .subscriber) b.subscribers
  models := g.models.splice (S .model) b.models
  records := g.records.splice (S .record) b.records
  forest := g.forest.splice (S .node) b.forest
  compilers := g.compilers.splice (S .compiler) b.compilers

structure Keeps (S : Share) (P : Kind → Nat → Prop) (g : Graph) : Prop where
  stores : g.stores.Keeps (S .store) (·.Within P)
  registries : g.registries.Keeps (S .registry) fun readers => ∀ s ∈ readers, P .subscriber s.index
  subscribers : g.subscribers.Keeps (S .subscriber) (·.role.Within P)
  models : g.models.Keeps (S .model) fun m => P .store m.data.index
  nodes : g.forest.nodes.Keeps (S .node) (·.Within P)
  compilers : g.compilers.Keeps (S .compiler) (·.Within P)

theorem Keeps.mono (h : g.Keeps S P) (le : ∀ kind i, P kind i → Q kind i) : g.Keeps S Q where
  stores := h.stores.mono fun _ within => within.mono le
  registries := h.registries.mono fun _ within s hs => le _ _ (within s hs)
  subscribers := h.subscribers.mono fun _ within => within.mono le
  models := h.models.mono fun _ within => le _ _ within
  nodes := h.nodes.mono fun _ within => within.mono le
  compilers := h.compilers.mono fun _ within => within.mono le

/-- No reference leads out of a side, and what is made next belongs to it. -/
structure Closed (S : Share) (g : Graph) : Prop where
  keeps : g.Keeps S (S.Has g)
  coming : ∀ kind i, g.count kind ≤ i → S kind i

/-- A change that stays on a side, and does the same whatever there is beside it. -/
structure Local (S : Share) (op : Graph → Graph) (g : Graph) : Prop where
  closed : (op g).Closed S
  larger : g.Larger (op g)
  splice : ∀ b, op (g.splice S b) = (op g).splice S b

namespace Local

variable {op op' : Graph → Graph}

theorem id (closed : g.Closed S) : Local S (fun g => g) g := ⟨closed, .refl g, fun _ => rfl⟩

theorem congr (same : op g = op' g) (same' : ∀ b, op (g.splice S b) = op' (g.splice S b))
    (h : Local S op' g) : Local S op g where
  closed := by
    rw [same]
    exact h.closed
  larger := by
    rw [same]
    exact h.larger
  splice b := by rw [same', h.splice, same]

theorem comp (h : Local S op g) (h' : Local S op' (op g)) : Local S (fun g => op' (op g)) g where
  closed := h'.closed
  larger := h.larger.trans h'.larger
  splice b := by rw [h.splice, h'.splice]

theorem foldl {α : Type} {step : Graph → α → Graph} {F : Graph → α → Prop}
    (mono : ∀ g g' a, F g a → g.Larger g' → F g' a)
    (each : ∀ g a, g.Closed S → F g a → Local S (fun g => step g a) g) (as : List α) (closed : g.Closed S)
    (all : ∀ a ∈ as, F g a) : Local S (fun g => as.foldl step g) g := by
  induction as generalizing g with
  | nil => exact .id closed
  | cons a as ih =>
    have first := each g a closed (all a List.mem_cons_self)
    have rest := ih first.closed fun b hb => mono _ _ _ (all b (List.mem_cons_of_mem _ hb)) first.larger
    exact first.comp rest

theorem of_keeps (closed : g.Closed S) (larger : g.Larger (op g)) (keeps : (op g).Keeps S (S.Has g))
    (splice : ∀ b, op (g.splice S b) = (op g).splice S b) : Local S op g where
  closed := ⟨keeps.mono fun _ _ has => has.mono larger, fun kind i hi => closed.coming kind i
    (Nat.le_trans (larger kind) hi)⟩
  larger := larger
  splice := splice

end Local

structure Yields {α : Type} (S : Share) (op : Graph → α × Graph) (g : Graph) : Prop where
  locally : Local S (fun g => (op g).2) g
  told : ∀ b, (op (g.splice S b)).1 = (op g).1

namespace Yields

variable {α β : Type} {op op' : Graph → α × Graph}

theorem congr (same : op g = op' g) (same' : ∀ b, op (g.splice S b) = op' (g.splice S b))
    (h : Yields S op' g) : Yields S op g where
  locally := h.locally.congr (congrArg Prod.snd same) fun b => congrArg Prod.snd (same' b)
  told b := by rw [same', h.told, same]

theorem of_local {op : Graph → Graph} (h : Local S op g) (a : α) : Yields S (fun g => (a, op g)) g := ⟨h, fun _ => rfl⟩

theorem after {op : Graph → Graph} (h : Local S op g) (h' : Yields S op' (op g)) : Yields S (fun g => op' (op g)) g :=
  ⟨h.comp h'.locally, fun b => by rw [h.splice, h'.told]⟩

theorem bind (h : Yields S op g) {next : α → Graph → β × Graph} (h' : Yields S (next (op g).1) (op g).2) :
    Yields S (fun g => next (op g).1 (op g).2) g where
  locally := by
    refine .congr rfl (fun b => ?_) (h.locally.comp h'.locally)
    rw [h.told]
  told b := by rw [h.told, h.locally.splice, h'.told]

end Yields

section

variable {s : StoreId} {t : SubscriberId} {m : ModelId} {r : RecordId} {n : NodeId} {c : CompilerId}

@[simp]
theorem store_splice (here : S .store s.index) : (g.splice S b).store s = g.store s := Table.get_splice_of_own here

@[simp] theorem subscriber_splice (here : S .subscriber t.index) : (g.splice S b).subscriber t = g.subscriber t :=
  Table.get_splice_of_own here

@[simp]
theorem model_splice (here : S .model m.index) : (g.splice S b).model m = g.model m := Table.get_splice_of_own here

@[simp] theorem record_splice (here : S .record r.index) : (g.splice S b).record r = g.record r :=
  Table.get_splice_of_own here

@[simp] theorem compiler_splice (here : S .compiler c.index) : (g.splice S b).compiler c = g.compiler c :=
  Table.get_splice_of_own here

@[simp] theorem node_splice (here : S .node n.index) : (g.splice S b).forest.node n = g.forest.node n :=
  Table.get_splice_of_own here

@[simp] theorem content_splice (here : S .node n.index) : (g.splice S b).forest.content n = g.forest.content n := by
  simp [Forest.content, here]

@[simp] theorem children_splice (here : S .node n.index) : (g.splice S b).forest.children n = g.forest.children n := by
  simp [Forest.children, here]

@[simp] theorem count_splice (kind : Kind) : (g.splice S b).count kind = g.count kind := by
  cases kind <;> exact Table.size_splice

end

namespace Closed

variable (h : g.Closed S)
include h

theorem store {s : StoreId} (here : S .store s.index) : (g.store s).Within (S.Has g) :=
  h.keeps.stores.get here fun _ _ => nofun

theorem role {s : SubscriberId} (here : S .subscriber s.index) : (g.subscriber s).role.Within (S.Has g) :=
  h.keeps.subscribers.get here trivial

theorem watcher {s : SubscriberId} {w : Watcher} (here : S .subscriber s.index) (hw : g.watcher? s = some w) :
    w.Within (S.Has g) := by
  have within := h.role here
  rw [watcher?] at hw
  split at hw
  · next role =>
    cases hw
    rw [role] at within
    exact within
  · cases hw

theorem data {m : ModelId} (here : S.Has g .model m.index) : S.Has g .store (g.model m).data.index :=
  h.keeps.models m.index here.1 here.2

theorem node {n : NodeId} (here : S .node n.index) : (g.forest.node n).Within (S.Has g) :=
  h.keeps.nodes.get here (Node.within_blank _ _)

theorem children {n : NodeId} (here : S .node n.index) : ∀ c ∈ g.forest.children n, S.Has g .node c.index :=
  (h.node here).children

theorem compiler {c : CompilerId} (here : S.Has g .compiler c.index) : (g.compiler c).Within (S.Has g) :=
  h.keeps.compilers c.index here.1 here.2

end Closed

section

variable {s : StoreId} {t : SubscriberId} {r : RecordId} {c : CompilerId}

theorem local_modifyStore (closed : g.Closed S) (here : S .store s.index) {change : Store → Store}
    (within : (change (g.store s)).Within (S.Has g)) : Local S (·.modifyStore s change) g := by
  apply Local.of_keeps closed
  · intro kind
    cases kind with
    | store => exact Table.size_le_modify ..
    | _ => exact Nat.le_refl _
  · exact { closed.keeps with stores := closed.keeps.stores.modify within }
  · exact fun b => congrArg (fun stores => { g.splice S b with stores }) (Table.modify_splice here change)

theorem local_setRegistry {r : RegistryId} (closed : g.Closed S) (here : S .registry r.index)
    {readers : List SubscriberId} (within : ∀ s ∈ readers, S.Has g .subscriber s.index) :
    Local S (fun g => { g with registries := g.registries.modify r.index fun _ => readers }) g := by
  apply Local.of_keeps closed
  · intro kind
    cases kind with
    | registry => exact Table.size_le_modify ..
    | _ => exact Nat.le_refl _
  · exact { closed.keeps with registries := closed.keeps.registries.modify within }
  · exact fun b => congrArg (fun registries => { g.splice S b with registries }) (Table.modify_splice here _)

theorem local_modifySubscriber (closed : g.Closed S) (here : S .subscriber t.index) {change : Subscriber → Subscriber}
    (within : (change (g.subscriber t)).role.Within (S.Has g)) : Local S (·.modifySubscriber t change) g := by
  apply Local.of_keeps closed
  · intro kind
    cases kind with
    | subscriber => exact Table.size_le_modify ..
    | _ => exact Nat.le_refl _
  · exact { closed.keeps with subscribers := closed.keeps.subscribers.modify within }
  · exact fun b => congrArg (fun subscribers => { g.splice S b with subscribers })
      (Table.modify_splice here change)

theorem local_setRecord (closed : g.Closed S) (here : S .record r.index) (v : Value) : Local S (·.setRecord r v) g := by
  apply Local.of_keeps closed
  · intro kind
    cases kind with
    | record => exact Table.size_le_modify ..
    | _ => exact Nat.le_refl _
  · exact { closed.keeps with }
  · exact fun b => congrArg (fun records => { g.splice S b with records }) (Table.modify_splice here _)

theorem local_setCompiler (closed : g.Closed S) (here : S .compiler c.index) {d : Compiler}
    (within : d.Within (S.Has g)) : Local S (·.setCompiler c d) g := by
  apply Local.of_keeps closed
  · intro kind
    cases kind with
    | compiler => exact Table.size_le_modify ..
    | _ => exact Nat.le_refl _
  · exact { closed.keeps with compilers := closed.keeps.compilers.modify within }
  · exact fun b => congrArg (fun compilers => { g.splice S b with compilers }) (Table.modify_splice here _)

theorem local_addStore (closed : g.Closed S) {d : Store} (within : d.Within (S.Has g)) :
    Local S (fun g => { g with stores := g.stores.add d }) g := by
  apply Local.of_keeps closed
  · intro kind
    cases kind with
    | store => exact Nat.le_of_lt (Table.size_lt_add ..)
    | _ => exact Nat.le_refl _
  · exact { closed.keeps with stores := closed.keeps.stores.add within }
  · exact fun b => congrArg (fun stores => { g.splice S b with stores })
      (Table.add_splice (closed.coming .store _ (Nat.le_refl _)) d)

theorem local_createRegistry (closed : g.Closed S) : Local S (·.createRegistry.2) g := by
  apply Local.of_keeps closed
  · intro kind
    cases kind with
    | registry => exact Nat.le_of_lt (Table.size_lt_add ..)
    | _ => exact Nat.le_refl _
  · exact { closed.keeps with registries := closed.keeps.registries.add fun _ mem => absurd mem List.not_mem_nil }
  · exact fun b => congrArg (fun registries => { g.splice S b with registries })
      (Table.add_splice (closed.coming .registry _ (Nat.le_refl _)) [])

theorem local_createModel (closed : g.Closed S) {m : ViewModel} (within : S.Has g .store m.data.index) :
    Local S (fun g => (g.createModel m).2) g := by
  apply Local.of_keeps closed
  · intro kind
    cases kind with
    | model => exact Nat.le_of_lt (Table.size_lt_add ..)
    | _ => exact Nat.le_refl _
  · exact { closed.keeps with models := closed.keeps.models.add within }
  · exact fun b => congrArg (fun models => { g.splice S b with models })
      (Table.add_splice (closed.coming .model _ (Nat.le_refl _)) m)

theorem local_createRecord (closed : g.Closed S) (v : Value) : Local S (fun g => (g.createRecord v).2) g := by
  apply Local.of_keeps closed
  · intro kind
    cases kind with
    | record => exact Nat.le_of_lt (Table.size_lt_add ..)
    | _ => exact Nat.le_refl _
  · exact { closed.keeps with }
  · exact fun b => congrArg (fun records => { g.splice S b with records })
      (Table.add_splice (closed.coming .record _ (Nat.le_refl _)) v)

theorem has_createRecord (closed : g.Closed S) (v : Value) : S.Has (g.createRecord v).2 .record g.records.size :=
  ⟨closed.coming .record _ (Nat.le_refl _), Table.size_lt_add ..⟩

theorem local_addCompiler (closed : g.Closed S) {d : Compiler} (within : d.Within (S.Has g)) :
    Local S (fun g => { g with compilers := g.compilers.add d }) g := by
  apply Local.of_keeps closed
  · intro kind
    cases kind with
    | compiler => exact Nat.le_of_lt (Table.size_lt_add ..)
    | _ => exact Nat.le_refl _
  · exact { closed.keeps with compilers := closed.keeps.compilers.add within }
  · exact fun b => congrArg (fun compilers => { g.splice S b with compilers })
      (Table.add_splice (closed.coming .compiler _ (Nat.le_refl _)) d)

end

end Graph

end DataBinding
