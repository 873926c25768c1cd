import Mathlib.Logic.Relation
import DataBinding.Proofs.NotificationPasses
import DataBinding.Proofs.SplitEngines

namespace DataBinding

namespace Graph

variable {g g' : Graph} {s t u : StoreId} {key last : String} {keys : List String} {path q : Path} {v : Value}

/-- A property of one store holds the other. Objects inside arrays do not count: no path leads to them. -/
def Contains (g : Graph) (s t : StoreId) : Prop := ∃ key, g.property? s key = some (.object t)

def Acyclic (g : Graph) : Prop := ∀ s, ¬ Relation.TransGen g.Contains s s

def Complete (g : Graph) : Prop := ∀ s t, g.Contains s t → t.index < g.stores.size

def Passable (g : Graph) (s : StoreId) (path : Path) : Prop :=
  ∀ q : Path, q.segments <+: path.segments → q ≠ path → ∃ t, g.valueAt s q = .object t

def lookupsAlong (g : Graph) (s : StoreId) (last : String) : List String → List (StoreId × String)
  | [] => [(s, last)]
  | key :: keys => (s, key) :: match g.property? s key with
    | some (.object next) => g.lookupsAlong next last keys
    | _ => []

def lookups (g : Graph) (s : StoreId) (path : Path) : List (StoreId × String) :=
  g.lookupsAlong s path.last path.parents

theorem hasKey_eq (g : Graph) (s : StoreId) (key : String) : g.hasKey s key = (g.property? s key).isSome := by
  rw [hasKey, Fields.contains, property?, Option.isSome_map]

def layered (g : Graph) : Bool :=
  (List.range g.stores.size).all fun i => (g.store ⟨i⟩).properties.all fun (_, p) =>
    match p.value with
    | .object t => t.index < i
    | _ => true

theorem mem_of_get? {α : Type} {name : String} {a : α} {fields : Fields α} (h : fields.get? name = some a) :
    (name, a) ∈ fields := by
  induction fields with
  | nil => simp [Fields.get?] at h
  | cons f rest ih =>
    rw [Fields.get?] at h
    split at h
    · next same =>
      cases h
      rw [← same]
      exact List.mem_cons_self
    · exact List.mem_cons_of_mem _ (ih h)

theorem index_lt_of_layered (h : g.layered = true) (contains : g.Contains s t) : t.index < s.index := by
  obtain ⟨key, held⟩ := contains
  have exist := exists_of_property? held
  obtain ⟨p, found, value⟩ := Option.map_eq_some_iff.1 held
  simp only [layered, List.all_eq_true, List.mem_range] at h
  have older := h s.index exist (key, p) (mem_of_get? found)
  simpa [value] using older

theorem acyclic_of_layered (h : g.layered = true) : g.Acyclic := by
  intro s cycle
  have older {t : StoreId} (leads : Relation.TransGen g.Contains s t) : t.index < s.index := by
    induction leads with
    | single contains => exact index_lt_of_layered h contains
    | tail _ contains ih => exact Nat.lt_trans (index_lt_of_layered h contains) ih
  exact absurd (older cycle) (Nat.lt_irrefl _)

theorem complete_of_closed (closed : g.Closed Share.whole) : g.Complete := by
  rintro s t ⟨key, held⟩
  have reached : Share.whole.Has g .store t.index := closed.peek rfl key t (peek_of_property? held)
  exact reached.2

theorem walk?_cons (g : Graph) (s : StoreId) (key : String) (keys : List String) :
    g.walk? s (key :: keys) = match g.property? s key with
      | some (.object next) => g.walk? next keys
      | _ => none := by
  rw [walk?, peek]
  cases g.property? s key with
  | none => rfl
  | some v => cases v <;> rfl

theorem lookupsAlong_stable (same : ∀ p ∈ g.lookupsAlong s last keys, g'.property? p.1 p.2 = g.property? p.1 p.2) :
    (g'.readAlong none s last keys).1 = (g.readAlong none s last keys).1 ∧
      (g'.walk? s keys).any (g'.hasKey · last) = (g.walk? s keys).any (g.hasKey · last) := by
  induction keys generalizing s with
  | nil =>
    have here : g'.property? s last = g.property? s last := same (s, last) (by simp [lookupsAlong])
    simp [readAlong, read, peek, walk?, hasKey_eq, here]
  | cons key keys ih =>
    have here : g'.property? s key = g.property? s key := same (s, key) (by simp [lookupsAlong])
    rw [readAlong_cons, readAlong_cons, walk?_cons, walk?_cons, here]
    rw [lookupsAlong] at same
    rcases found : g.property? s key with _ | v
    · exact ⟨rfl, rfl⟩
    · cases v with
      | object next =>
        rw [found] at same
        exact ih fun p mem => same p (List.mem_cons_of_mem _ mem)
      | _ => exact ⟨rfl, rfl⟩

theorem lookups_stable (same : ∀ p ∈ g.lookups s path, g'.property? p.1 p.2 = g.property? p.1 p.2) :
    g'.valueAt s path = g.valueAt s path ∧ g'.hasPath s path = g.hasPath s path :=
  lookupsAlong_stable same

theorem contains_of_walk? (walk : g.walk? s keys = some t) : Relation.ReflTransGen g.Contains s t := by
  induction keys generalizing s with
  | nil =>
    cases walk
    exact .refl
  | cons key keys ih =>
    obtain ⟨next, found, walk⟩ := exists_of_walk?_cons walk
    exact (ih walk).head ⟨key, property?_of_peek found⟩

theorem Acyclic.walk? (acyclic : g.Acyclic) (walk : g.walk? s keys = some t)
    (same : ∀ u key, u ≠ t → g'.property? u key = g.property? u key) : g'.walk? s keys = some t := by
  induction keys generalizing s with
  | nil => exact walk
  | cons key keys ih =>
    obtain ⟨next, found, walk⟩ := exists_of_walk?_cons walk
    have held := property?_of_peek found
    have apart : s ≠ t := by
      rintro rfl
      apply acyclic s
      exact .head' ⟨key, held⟩ (contains_of_walk? walk)
    rw [walk?_cons, same s key apart, held]
    exact ih walk

theorem Complete.walk? (complete : g.Complete) (exist : s.index < g.stores.size) (walk : g.walk? s keys = some t) :
    t.index < g.stores.size := by
  induction keys generalizing s with
  | nil =>
    cases walk
    exact exist
  | cons key keys ih =>
    obtain ⟨next, found, walk⟩ := exists_of_walk?_cons walk
    exact ih (complete s next ⟨key, property?_of_peek found⟩) walk

theorem prefix_parents_iff : q.segments <+: path.segments ∧ q ≠ path ↔ q.segments <+: path.parents := by
  constructor
  · rintro ⟨before, other⟩
    rcases List.prefix_concat_iff.1 before with same | before
    · apply absurd _ other
      apply Option.some.inj
      rw [← Path.ofSegments?_segments q, ← Path.ofSegments?_segments path]
      exact congrArg Path.ofSegments? same
    · exact before
  · intro before
    refine ⟨before.trans (List.prefix_append _ _), ?_⟩
    rintro rfl
    have short := before.length_le
    simp only [Path.segments, List.length_append, List.length_singleton] at short
    omega

theorem readAlong_of_prefix (walk : g.walk? s keys = some t) {parents : List String}
    (before : parents ++ [last] <+: keys) : ∃ u, (g.readAlong none s last parents).1 = .object u := by
  induction parents generalizing s keys with
  | nil =>
    obtain ⟨rest, rfl⟩ := before
    obtain ⟨next, found, -⟩ := exists_of_walk?_cons walk
    exact ⟨next, found⟩
  | cons key parents ih =>
    obtain ⟨rest, rfl⟩ := before
    obtain ⟨next, found, walk⟩ := exists_of_walk?_cons walk
    rw [readAlong_cons, property?_of_peek found]
    exact ih walk (List.prefix_append _ _)

theorem exists_walk? (objects : ∀ parents last, parents ++ [last] <+: keys →
    ∃ u, (g.readAlong none s last parents).1 = .object u) : ∃ t, g.walk? s keys = some t := by
  induction keys generalizing s with
  | nil => exact ⟨s, rfl⟩
  | cons key keys ih =>
    obtain ⟨next, found⟩ := objects [] key (by simp)
    have held : g.property? s key = some (.object next) := property?_of_peek found
    rw [walk?_cons, held]
    apply ih
    intro parents last before
    have longer := objects (key :: parents) last (by simpa using before)
    rwa [readAlong_cons, held] at longer

theorem passable_iff : g.Passable s path ↔ ∃ t, g.walk? s path.parents = some t := by
  constructor
  · intro passable
    apply exists_walk?
    intro parents last before
    have proper := prefix_parents_iff.2 (show (Path.mk parents last).segments <+: path.parents from before)
    exact passable ⟨parents, last⟩ proper.1 proper.2
  · rintro ⟨t, walk⟩ q before other
    exact readAlong_of_prefix walk (prefix_parents_iff.1 ⟨before, other⟩)

theorem walk?_of_defined (defined : (g.readAlong none s last keys).1 ≠ .undefined) :
    (g.walk? s keys).any (g.hasKey · last) = true := by
  induction keys generalizing s with
  | nil =>
    simp only [readAlong, read, peek] at defined
    simp only [walk?, hasKey_eq, Option.any_some]
    cases found : g.property? s last with
    | none => simp [found] at defined
    | some v => rfl
  | cons key keys ih =>
    rw [readAlong_cons] at defined
    rw [walk?_cons]
    rcases found : g.property? s key with _ | v
    · simp [found] at defined
    · cases v with
      | object next =>
        rw [found] at defined
        exact ih defined
      | _ => simp [found] at defined

theorem hasPath_of_defined (defined : g.valueAt s path ≠ .undefined) : g.hasPath s path = true :=
  walk?_of_defined defined

theorem passable_of_hasPath (found : g.hasPath s path = true) : g.Passable s path := by
  obtain ⟨t, v, walk, -⟩ := exists_of_hasPath found
  exact passable_iff.2 ⟨t, walk⟩

section

variable (written : ∀ u key, g'.property? u key = if u = t ∧ key = path.last then some v else g.property? u key)
include written

theorem property?_written (other : (u, key) ≠ (t, path.last)) : g'.property? u key = g.property? u key := by
  rw [written, if_neg fun h => other (Prod.ext h.1 h.2)]

/-- The way to a property does not lead through it, so it is found where it has been written. -/
theorem read_written (acyclic : g.Acyclic) (walk : g.walk? s path.parents = some t) :
    g'.hasPath s path = true ∧ ∀ reader, (g'.readPath reader s path).1 = v := by
  have walk' : g'.walk? s path.parents = some t := by
    apply acyclic.walk? walk
    intro u key other
    rw [written, if_neg fun h => other h.1]
  have put : g'.property? t path.last = some v := by rw [written, if_pos ⟨rfl, rfl⟩]
  constructor
  · rw [hasPath, walk', Option.any_some, hasKey_eq, put]
    rfl
  · intro reader
    rw [readPath_fst]
    exact readAlong_of_walk? walk' put

theorem readPath_written (unseen : (t, path.last) ∉ g.lookups u q) :
    (∀ reader, (g'.readPath reader u q).1 = (g.readPath reader u q).1) ∧ g'.hasPath u q = g.hasPath u q := by
  have stable : g'.valueAt u q = g.valueAt u q ∧ g'.hasPath u q = g.hasPath u q := by
    apply lookups_stable
    intro p mem
    apply property?_written written
    intro same
    exact unseen (same ▸ mem)
  refine ⟨fun reader => ?_, stable.2⟩
  simpa using stable.1

end

end Graph

namespace Engine

variable {e : Engine} {s t : StoreId} {path : Path} {v : Value}

theorem writePath_of_walk? (walk : e.graph.walk? s path.parents = some t) (exist : t.index < e.graph.stores.size) :
    ∃ g, e.writePath s path v =
        ⟨g, .pass (.write path.last) none (e.graph.live (.property t path.last)) [] :: e.frames, .next⟩ ∧
      ∀ u key, g.property? u key = if u = t ∧ key = path.last then some v else e.graph.property? u key := by
  have live : (e.graph.install t path.last v).live (.property t path.last) =
      e.graph.live (.property t path.last) := by
    rw [Graph.live, Graph.readers_install]
    rfl
  refine ⟨(e.graph.install t path.last v).prune (.property t path.last), ?_, ?_⟩
  · rw [writePath, walk]
    dsimp only
    rw [write, startWrite, startPass, live]
  · intro u key
    rw [Graph.prune, Graph.property?_setReaders, Graph.property?_install]
    simp [exist]

theorem perform_of_not_passable (blocked : ¬ e.graph.Passable s path) :
    e.perform (.writePath s path v) = e.answer (.error (.pathNotFound path)) := by
  have ends : e.graph.walk? s path.parents = none := by
    rw [Graph.passable_iff] at blocked
    exact Option.eq_none_iff_forall_ne_some.2 fun t walk => blocked ⟨t, walk⟩
  simp only [perform, writePath]
  rw [ends]

theorem perform_of_passable (complete : e.graph.Complete) (exist : s.index < e.graph.stores.size)
    (passable : e.graph.Passable s path) : ∃ t g', e.graph.walk? s path.parents = some t ∧
      e.perform (.writePath s path v) =
        ⟨g', .pass (.write path.last) none (e.graph.live (.property t path.last)) [] :: e.frames, .next⟩ ∧
      ∀ u key, g'.property? u key = if u = t ∧ key = path.last then some v else e.graph.property? u key := by
  obtain ⟨t, walk⟩ := Graph.passable_iff.1 passable
  obtain ⟨g', started, written⟩ := writePath_of_walk? walk (complete.walk? exist walk)
  exact ⟨t, g', walk, started, written⟩

end Engine

namespace Run

variable {e e₀ e₁ : Engine} {h h₀ h₁ : History} {s : StoreId} {path : Path} {v : Value}

theorem nil_of_within (run₀ : Run h₀ e₀) (run : Run (h₁ ++ h₀) e)
    (within : ∀ x ∈ h₁, e₀.frames.length < x.1.frames.length) : h₁ = [] := by
  refine run₀.along (P := fun h _ => h = []) run rfl ?_
  rintro h e m part earlier allowed rfl
  have inside := within _ (part.subset List.mem_cons_self)
  rw [run₀.unique earlier] at inside
  exact absurd inside (Nat.lt_irrefl _)

theorem pathNotFound_iff (complete : e.graph.Complete) (exist : s.index < e.graph.stores.size)
    (run : Run (h₁ ++ (e, .writePath s path v) :: h₀) e₁)
    (within : ∀ x ∈ h₁, e.frames.length < x.1.frames.length) (closed : e₁.frames = e.frames) :
    e₁.turn = .environment (.answer (.done (.error (.pathNotFound path)))) ↔ ¬ e.graph.Passable s path := by
  obtain ⟨-, -, run₁⟩ := run.of_move
  constructor
  · intro answered passable
    obtain ⟨t, g', -, started, -⟩ := Engine.perform_of_passable (v := v) complete exist passable
    rw [started] at run₁
    rcases run₁.underway_or_ended run within with ⟨above, running, left, frames, -, -⟩ | ⟨-, -, turn⟩
    · have short := congrArg List.length (closed.symm.trans frames)
      simp at short
      omega
    · rw [answered] at turn
      revert turn
      generalize List.flatMap failuresOf _ = failures
      cases failures <;> simp [Purpose.turn, writeResult]
  · intro blocked
    rw [Engine.perform_of_not_passable blocked] at run₁
    have none : h₁ = [] := run₁.nil_of_within run within
    subst none
    rw [← run₁.unique run]
    rfl

theorem complete_of_known (run : Run h e) (known : h.Known) : e.graph.Complete :=
  Graph.complete_of_closed (run.closed_of_known known).graph

/-- A write to a path fails at once, and leaves all as it is, exactly if something before its last key leads to no
object. Otherwise its value is at the path before anybody is told, and every walk that has not looked up the property
that was written goes as before; whatever its readers do, the write does not end as one that has found no path. A path
with a value is there, and a path that is there can be written. -/
theorem path_walks_agree (run : Run h e) (known : h.Known) (acyclic : e.graph.Acyclic)
    (exist : s.index < e.graph.stores.size) :
    let g := e.graph
    let e' := e.perform (.writePath s path v)
    (¬ g.Passable s path → e' = e.answer (.error (.pathNotFound path))) ∧
      (g.Passable s path → ∃ t, g.walk? s path.parents = some t ∧
        e'.frames = .pass (.write path.last) none (g.live (.property t path.last)) [] :: e.frames ∧ e'.turn = .next ∧
        e'.graph.hasPath s path = true ∧ (∀ reader, (e'.graph.readPath reader s path).1 = v) ∧
        (∀ u key, (u, key) ≠ (t, path.last) → e'.graph.property? u key = g.property? u key) ∧
        ∀ u q, (t, path.last) ∉ g.lookups u q →
          (∀ reader, (e'.graph.readPath reader u q).1 = (g.readPath reader u q).1) ∧
            e'.graph.hasPath u q = g.hasPath u q) ∧
      (∀ h₀ h₁ e₁, Run (h₁ ++ (e, .writePath s path v) :: h₀) e₁ →
        (∀ x ∈ h₁, e.frames.length < x.1.frames.length) → e₁.frames = e.frames →
        (e₁.turn = .environment (.answer (.done (.error (.pathNotFound path)))) ↔ ¬ g.Passable s path)) ∧
      (∀ reader, (g.readPath reader s path).1 ≠ .undefined → g.hasPath s path = true) ∧
      (g.hasPath s path = true → g.Passable s path) := by
  intro g e'
  have complete := run.complete_of_known known
  refine ⟨Engine.perform_of_not_passable, ?_, fun h₀ h₁ e₁ => pathNotFound_iff complete exist, ?_,
    Graph.passable_of_hasPath⟩
  · intro passable
    obtain ⟨t, g', walk, started, written⟩ := Engine.perform_of_passable (v := v) complete exist passable
    obtain ⟨found, value⟩ := Graph.read_written written acyclic walk
    have started : e' = _ := started
    rw [started]
    exact ⟨t, walk, rfl, rfl, found, value, fun u key => Graph.property?_written written,
      fun u q => Graph.readPath_written written⟩
  · intro reader defined
    rw [Graph.readPath_fst] at defined
    exact Graph.hasPath_of_defined defined

def sharing : List Move :=
  [.createStore [("n", .null)], .createStore [("o", .object ⟨0⟩), ("r", .object ⟨0⟩), ("x", .bool true)]]

def shared : Engine := Engine.after {} sharing

theorem shared_path_walks_agree :
    History.Known (Engine.trace {} sharing) ∧ shared.graph.Acyclic ∧
      (shared.perform (.writePath ⟨1⟩ ⟨["o"], "n"⟩ (.string "y"))).graph.valueAt ⟨1⟩ ⟨["o"], "n"⟩ = .string "y" ∧
      (shared.perform (.writePath ⟨1⟩ ⟨["o"], "n"⟩ (.string "y"))).graph.valueAt ⟨1⟩ ⟨[], "x"⟩ = .bool true ∧
      shared.perform (.writePath ⟨1⟩ ⟨["x"], "n"⟩ (.string "y")) =
        shared.answer (.error (.pathNotFound ⟨["x"], "n"⟩)) := by
  have run : Run (Engine.trace {} sharing) shared := Run.of_admits (by decide +kernel)
  have known : History.Known (Engine.trace {} sharing) := by decide +kernel
  have older : shared.graph.layered = true := by decide +kernel
  have acyclic := Graph.acyclic_of_layered older
  have passable : shared.graph.Passable ⟨1⟩ ⟨["o"], "n"⟩ := Graph.passable_iff.2 ⟨⟨0⟩, by decide +kernel⟩
  have blocked : ¬ shared.graph.Passable ⟨1⟩ ⟨["x"], "n"⟩ := by
    have ends : shared.graph.walk? ⟨1⟩ ["x"] = none := by decide +kernel
    simp [Graph.passable_iff, ends]
  have ends : shared.graph.walk? ⟨1⟩ ["o"] = some ⟨0⟩ := by decide +kernel
  have exist : 1 < shared.graph.stores.size := by decide +kernel
  obtain ⟨-, written, -⟩ :=
    @path_walks_agree shared _ ⟨1⟩ ⟨["o"], "n"⟩ (.string "y") run known acyclic exist
  obtain ⟨refused, -⟩ :=
    @path_walks_agree shared _ ⟨1⟩ ⟨["x"], "n"⟩ (.string "y") run known acyclic exist
  obtain ⟨t, walk, -, -, -, value, -, others⟩ := written passable
  obtain rfl : t = ⟨0⟩ := Option.some.inj (walk.symm.trans ends)
  have unseen := others ⟨1⟩ ⟨[], "x"⟩ (by decide +kernel)
  refine ⟨known, acyclic, value none, ?_, refused blocked⟩
  have before : (shared.graph.readPath none ⟨1⟩ ⟨[], "x"⟩).1 = .bool true := rfl
  exact (unseen.1 none).trans before

end Run

end DataBinding
