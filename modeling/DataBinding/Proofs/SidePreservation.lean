import DataBinding.Proofs.MoveLocality

namespace DataBinding

def Share.side (S : Share) (b : Bool) : Share := fun kind i => S kind i == b

/-- A side with everything that is still to come. -/
def Share.opened (S : Share) (g : Graph) : Share := fun kind i => S kind i || decide (g.count kind ≤ i)

namespace Table

variable {α : Type} [Inhabited α] {own own' : Nat → Bool} {t t' t₁ t₁' b : Table α} {P : α → Prop}

def Matches (own : Nat → Bool) (t t' : Table α) : Prop := ∀ i, own i → t'.get i = t.get i

theorem Keeps.share (h : t.Keeps own P) (same : ∀ i, i < t.size → own' i → own i) : t.Keeps own' P := fun i here hi =>
  h i (same i hi here) hi

theorem splice_share (same : ∀ i, i < t.size → own i = own' i) : t.splice own b = t.splice own' b := by
  apply splice_eq
  · exact size_splice
  · intro i hi here
    rw [get_splice_of_own (by rw [same i hi, here])]
  · intro i hi other
    rw [get_splice, if_pos hi, same i hi, other]
    rfl

theorem matches_splice : t.Matches own (t.splice own b) := fun _ here => get_splice_of_own here

theorem matches_splice_other (apart : ∀ i, own' i → own i = false) (size : b.size ≤ t.size) :
    b.Matches own' (t.splice own b) := by
  intro i here
  rw [get_splice, apart i here]
  split
  · rfl
  · next absent => rw [get_of_size_le _ (Nat.le_trans size (Nat.le_of_not_lt absent))]

theorem Matches.trans (h : t.Matches own t') (h' : t'.Matches own t₁) : t.Matches own t₁ := fun i here =>
  (h' i here).trans (h i here)

theorem Matches.eq_splice (h : t.Matches own t') (size : t'.size = t.size) : t' = t.splice own t' :=
  splice_eq size (fun i _ here => h i here) fun _ _ _ => rfl

theorem Matches.keeps (h : t.Matches own t') (keeps : t.Keeps own P) (size : ∀ i, own i → i < t'.size → i < t.size) :
    t'.Keeps own P := by
  intro i here hi
  rw [h i here]
  exact keeps i here (size i here hi)

theorem Matches.weaken (h : t.Matches own t') (fewer : ∀ i, own' i → own i) : t.Matches own' t' := fun i here =>
  h i (fewer i here)

theorem matches_add (t : Table α) (a : α) : t.Matches (fun i => decide (i < t.size)) (t.add a) := by
  intro i old
  rw [get_add, if_neg (Nat.ne_of_lt (of_decide_eq_true old))]

theorem Matches.follow (h : t.Matches own t') (h₁ : t.Matches own t₁)
    (h' : t'.Matches (fun i => decide (i < t'.size)) t₁') (size : t'.size = t.size)
    (size₁ : t₁'.size = t₁.size) (made : ∀ i, t.size ≤ i → i < t₁.size → own i = false) : t₁.Matches own t₁' := by
  intro i here
  by_cases old : i < t.size
  · rw [h' i (decide_eq_true (by rwa [size])), h i here, h₁ i here]
  · have absent : t₁.size ≤ i := by
      apply Nat.le_of_not_lt
      intro new
      rw [made i (Nat.le_of_not_lt old) new] at here
      cases here
    rw [get_of_size_le _ absent, get_of_size_le _ (by rwa [size₁])]

end Table

namespace Graph

variable {S S' : Share} {g g' g₁ b : Graph} {P : Kind → Nat → Prop}

structure Matches (S : Share) (g g' : Graph) : Prop where
  stores : g.stores.Matches (S .store) g'.stores
  registries : g.registries.Matches (S .registry) g'.registries
  subscribers : g.subscribers.Matches (S .subscriber) g'.subscribers
  models : g.models.Matches (S .model) g'.models
  records : g.records.Matches (S .record) g'.records
  nodes : g.forest.nodes.Matches (S .node) g'.forest.nodes
  compilers : g.compilers.Matches (S .compiler) g'.compilers

def Makes (S : Share) (g g' : Graph) : Prop := ∀ kind i, g.count kind ≤ i → i < g'.count kind → S kind i

theorem makes_self (S : Share) (g : Graph) : g.Makes S g := fun _ _ old new => absurd new (Nat.not_lt_of_le old)

theorem opened_of_makes (makes : g.Makes S g') (kind : Kind) (i : Nat) (new : i < g'.count kind) :
    S.opened g kind i = S kind i := by
  by_cases old : g.count kind ≤ i
  · simp [Share.opened, makes kind i old new]
  · simp [Share.opened, old]

theorem has_opened (makes : g.Makes S g') : (S.opened g).Has g' = S.Has g' := by
  funext kind i
  apply propext
  refine and_congr_left fun new => ?_
  rw [opened_of_makes makes kind i new]

theorem Keeps.share (h : g.Keeps S P) (same : ∀ kind i, i < g.count kind → S' kind i → S kind i) : g.Keeps S' P where
  stores := h.stores.share (same .store)
  registries := h.registries.share (same .registry)
  subscribers := h.subscribers.share (same .subscriber)
  models := h.models.share (same .model)
  nodes := h.nodes.share (same .node)
  compilers := h.compilers.share (same .compiler)

theorem splice_share (same : ∀ kind i, i < g.count kind → S kind i = S' kind i) : g.splice S b = g.splice S' b := by
  have nodes : g.forest.splice (S .node) b.forest = g.forest.splice (S' .node) b.forest :=
    congrArg Forest.mk (Table.splice_share (same .node))
  rw [splice, Table.splice_share (same .store), Table.splice_share (same .registry),
    Table.splice_share (same .subscriber), Table.splice_share (same .model), Table.splice_share (same .record), nodes,
    Table.splice_share (same .compiler), splice]

theorem Keeps.closed (keeps : g.Keeps S (S.Has g)) : g.Closed (S.opened g) where
  keeps := by
    rw [has_opened (makes_self S g)]
    apply keeps.share
    intro kind i hi here
    rwa [opened_of_makes (makes_self S g) kind i hi] at here
  coming kind i hi := by simp [Share.opened, hi]

theorem matches_splice : Matches S g (g.splice S b) :=
  ⟨Table.matches_splice, Table.matches_splice, Table.matches_splice, Table.matches_splice, Table.matches_splice,
    Table.matches_splice, Table.matches_splice⟩

theorem matches_splice_other (apart : ∀ kind i, S' kind i → S kind i = false) (larger : b.Larger g) :
    Matches S' b (g.splice S b) where
  stores := Table.matches_splice_other (apart .store) (larger .store)
  registries := Table.matches_splice_other (apart .registry) (larger .registry)
  subscribers := Table.matches_splice_other (apart .subscriber) (larger .subscriber)
  models := Table.matches_splice_other (apart .model) (larger .model)
  records := Table.matches_splice_other (apart .record) (larger .record)
  nodes := Table.matches_splice_other (apart .node) (larger .node)
  compilers := Table.matches_splice_other (apart .compiler) (larger .compiler)

theorem Matches.refl (g : Graph) : Matches S g g :=
  ⟨fun _ _ => rfl, fun _ _ => rfl, fun _ _ => rfl, fun _ _ => rfl, fun _ _ => rfl, fun _ _ => rfl, fun _ _ => rfl⟩

theorem Matches.trans (h : Matches S g g') (h' : Matches S g' g₁) : Matches S g g₁ where
  stores := h.stores.trans h'.stores
  registries := h.registries.trans h'.registries
  subscribers := h.subscribers.trans h'.subscribers
  models := h.models.trans h'.models
  records := h.records.trans h'.records
  nodes := h.nodes.trans h'.nodes
  compilers := h.compilers.trans h'.compilers

theorem Matches.weaken (h : Matches S g g') (fewer : ∀ kind i, S' kind i → S kind i) : Matches S' g g' where
  stores := h.stores.weaken (fewer .store)
  registries := h.registries.weaken (fewer .registry)
  subscribers := h.subscribers.weaken (fewer .subscriber)
  models := h.models.weaken (fewer .model)
  records := h.records.weaken (fewer .record)
  nodes := h.nodes.weaken (fewer .node)
  compilers := h.compilers.weaken (fewer .compiler)

def made (g : Graph) : Share := fun kind i => decide (i < g.count kind)

theorem Matches.follow {g₁' : Graph} (h : Matches S g g') (h₁ : Matches S g g₁) (h' : Matches g'.made g' g₁')
    (count : ∀ kind, g'.count kind = g.count kind) (count₁ : ∀ kind, g₁'.count kind = g₁.count kind)
    (made : ∀ kind i, g.count kind ≤ i → i < g₁.count kind → S kind i = false) : Matches S g₁ g₁' where
  stores := h.stores.follow h₁.stores h'.stores (count .store) (count₁ .store) (made .store)
  registries := h.registries.follow h₁.registries h'.registries (count .registry) (count₁ .registry) (made .registry)
  subscribers := h.subscribers.follow h₁.subscribers h'.subscribers (count .subscriber) (count₁ .subscriber)
    (made .subscriber)
  models := h.models.follow h₁.models h'.models (count .model) (count₁ .model) (made .model)
  records := h.records.follow h₁.records h'.records (count .record) (count₁ .record) (made .record)
  nodes := h.nodes.follow h₁.nodes h'.nodes (count .node) (count₁ .node) (made .node)
  compilers := h.compilers.follow h₁.compilers h'.compilers (count .compiler) (count₁ .compiler) (made .compiler)

theorem Matches.eq_splice (h : Matches S g g') (count : ∀ kind, g'.count kind = g.count kind) : g' = g.splice S g' := by
  have nodes : g'.forest = g.forest.splice (S .node) g'.forest := congrArg Forest.mk (h.nodes.eq_splice (count .node))
  rw [splice, ← h.stores.eq_splice (count .store), ← h.registries.eq_splice (count .registry),
    ← h.subscribers.eq_splice (count .subscriber), ← h.models.eq_splice (count .model),
    ← h.records.eq_splice (count .record), ← nodes, ← h.compilers.eq_splice (count .compiler)]

@[simp] theorem splice_self (S : Share) (g : Graph) : g.splice S g = g :=
  ((Matches.refl (S := S) g).eq_splice fun _ => rfl).symm

theorem Matches.keeps (h : Matches S g g') (keeps : g.Keeps S P)
    (count : ∀ kind i, S kind i → i < g'.count kind → i < g.count kind) : g'.Keeps S P where
  stores := h.stores.keeps keeps.stores (count .store)
  registries := h.registries.keeps keeps.registries (count .registry)
  subscribers := h.subscribers.keeps keeps.subscribers (count .subscriber)
  models := h.models.keeps keeps.models (count .model)
  nodes := h.nodes.keeps keeps.nodes (count .node)
  compilers := h.compilers.keeps keeps.compilers (count .compiler)

end Graph

namespace Engine

variable {S S' : Share} {e : Engine} {m : Move} {frames rest : List Frame}

/-- Neither the graph nor the work under way leads from what a side owns to the other side. -/
structure Keeps (S : Share) (e : Engine) : Prop where
  graph : e.graph.Keeps S (S.Has e.graph)
  frames : ∀ f ∈ e.frames, f.Within (S.Has e.graph)

theorem Keeps.perform (h : e.Keeps S) (within : m.Within (S.Has e.graph))
    (makes : e.graph.Makes S (e.perform m).graph) :
    (e.perform m).Keeps S ∧ e.graph.Larger (e.perform m).graph ∧
      ∀ b, (e.splice S b).perform m = (e.perform m).splice S b := by
  have here := Graph.has_opened (Graph.makes_self S e.graph)
  have there := Graph.has_opened makes
  have acts := acts_perform (S := S.opened e.graph) (e := e) (m := m)
    ⟨h.graph.closed, by rw [here]; exact h.frames⟩ (by rw [here]; exact within)
  refine ⟨⟨?_, ?_⟩, acts.larger, fun b => ?_⟩
  · have keeps := acts.closed.graph.keeps
    rw [there] at keeps
    refine keeps.share fun kind i hi own => ?_
    rwa [Graph.opened_of_makes makes kind i hi]
  · rw [← there]
    exact acts.closed.frames
  · have same := acts.splice b
    have before : e.splice S b = e.splice (S.opened e.graph) b :=
      congrArg (fun graph => { e with graph }) (Graph.splice_share fun kind i hi =>
        (Graph.opened_of_makes (Graph.makes_self S e.graph) kind i hi).symm)
    have after : (e.perform m).splice S b = (e.perform m).splice (S.opened e.graph) b :=
      congrArg (fun graph => { e.perform m with graph }) (Graph.splice_share fun kind i hi =>
        (Graph.opened_of_makes makes kind i hi).symm)
    rw [before, after]
    exact same

theorem Keeps.matches (h : e.Keeps S) (within : m.Within (S.Has e.graph))
    (makes : e.graph.Makes S (e.perform m).graph) (apart : ∀ kind i, S' kind i → S kind i = false) :
    Graph.Matches S' e.graph (e.perform m).graph := by
  obtain ⟨-, larger, same⟩ := h.perform within makes
  have still := same e.graph
  rw [splice, Graph.splice_self] at still
  have graph : (e.perform m).graph = (e.perform m).graph.splice S e.graph := congrArg Engine.graph still
  rw [graph]
  exact Graph.matches_splice_other apart larger

theorem Keeps.other (h : e.Keeps S) (within : m.Within (S.Has e.graph)) (makes : e.graph.Makes S (e.perform m).graph)
    (apart : ∀ kind i, S' kind i → S kind i = false) (keeps : e.graph.Keeps S' (S'.Has e.graph)) :
    (e.perform m).graph.Keeps S' (S'.Has (e.perform m).graph) := by
  have same := (h.matches within makes apart).keeps keeps fun kind i theirs new => by
    apply Nat.lt_of_not_le
    intro old
    have ours := makes kind i old new
    rw [apart kind i theirs] at ours
    cases ours
  exact same.mono fun _ _ has => has.mono (h.perform within makes).2.1

def onto (e : Engine) (rest : List Frame) : Engine := { e with frames := e.frames ++ rest }

@[simp] theorem update_onto (e : Engine) (s : SubscriberId) : (e.onto rest).update s = (e.update s).onto rest := by
  have graph : (e.onto rest).graph = e.graph := rfl
  cases role : (e.graph.subscriber s).role with
  | call callback =>
    rw [update_of_role role, update_of_role (e := e.onto rest) role]
    rfl
  | watch w =>
    have watcher : e.graph.watcher? s = some w := by rw [Graph.watcher?, role]
    cases changed : w.policy.same (e.graph.current w) w.value with
    | true =>
      rw [update_of_same watcher changed, update_of_same (e := e.onto rest) watcher changed]
      rfl
    | false =>
      rcases reaction_cases w.reaction with ⟨callback, reaction⟩ | ⟨slot, reaction⟩
      · rw [update_of_call watcher changed reaction, update_of_call (e := e.onto rest) watcher changed reaction]
        rfl
      · rw [update_of_slot watcher changed reaction, update_of_slot (e := e.onto rest) watcher changed reaction, graph]
        cases e.graph.forest.fill slot (e.graph.current w).text <;> rfl

@[simp] theorem hear_onto (e : Engine) (event : Event) (listener : Listener) :
    (e.onto rest).hear event listener = (e.hear event listener).onto rest := by
  cases listener with
  | input m path r =>
    cases typed : event.value with
    | none =>
      simp only [hear, typed]
      rfl
    | some text =>
      cases same : (e.graph.model m).options.changeDetection.same (.string text) (e.graph.record r) with
      | true =>
        rw [hear_of_same typed same, hear_of_same (e := e.onto rest) typed same]
        rfl
      | false =>
        cases walk : e.graph.walk? (e.graph.model m).data path.parents with
        | none =>
          rw [hear_of_missing typed same walk, hear_of_missing (e := e.onto rest) typed same walk]
          rfl
        | some t =>
          rw [hear_of_differs typed same walk, hear_of_differs (e := e.onto rest) typed same walk]
          rfl
  | _ => rfl

theorem proceed_onto (e : Engine) (under : e.frames ≠ []) : (e.onto rest).proceed = e.proceed.onto rest := by
  obtain ⟨g, frames, turn⟩ := e
  cases frames with
  | nil => exact absurd rfl under
  | cons f frames =>
    cases f with
    | pass purpose running pending failures =>
      cases pending with
      | nil => cases purpose <;> rfl
      | cons s pending =>
        cases alive : g.alive s with
        | true =>
          simp only [proceed, onto, List.cons_append, alive, if_true]
          exact update_onto ⟨g.retain s, .pass purpose (some s) pending failures :: frames, turn⟩ s
        | false =>
          simp only [proceed, onto, List.cons_append, alive]
          rfl
    | delivery n event pending first =>
      cases pending with
      | nil => cases first <;> rfl
      | cons listener pending => exact hear_onto ⟨g, .delivery n event pending first :: frames, turn⟩ event listener
    | _ => rfl

theorem accept_onto (e : Engine) (r : Except Error Unit) (under : e.frames ≠ []) :
    (e.onto rest).accept r = (e.accept r).onto rest := by
  obtain ⟨g, frames, turn⟩ := e
  cases frames with
  | nil => exact absurd rfl under
  | cons f frames => cases f <;> rfl

theorem perform_onto (e : Engine) (m : Move) (under : m = .step → e.frames ≠ []) :
    (e.onto rest).perform m = (e.perform m).onto rest := by
  cases m with
  | step =>
    obtain ⟨g, frames, turn⟩ := e
    cases turn with
    | environment reply => rfl
    | next => exact proceed_onto ⟨g, frames, .next⟩ (under rfl)
    | result r => exact accept_onto ⟨g, frames, .result r⟩ r (under rfl)
  | writePath s path v =>
    have graph : (e.onto rest).graph = e.graph := rfl
    rw [perform, perform, writePath, writePath, graph]
    cases e.graph.walk? s path.parents <;> rfl
  | run s => exact update_onto { e with graph := e.graph.retain s, frames := .run s :: e.frames } s
  | call m name event =>
    have graph : (e.onto rest).graph = e.graph := rfl
    rw [perform, perform, call, call, graph]
    cases (e.graph.model m).methods.get? name <;> rfl
  | input n text =>
    have graph : (e.onto rest).graph = e.graph := rfl
    rw [perform, perform, input, input, graph]
    cases e.graph.forest.setValue n text <;> rfl
  | _ => rfl

end Engine

end DataBinding
