import Mathlib.Data.List.Nodup
import Mathlib.Data.List.Perm.Subperm
import Mathlib.Logic.Relation
import DataBinding.Forest.Traversal
import DataBinding.Proofs.NodeContent

/-!
Who stands below whom in a forest whose links agree. No way up is longer than the forest has nodes, so the walks
that are bounded by that number miss nothing.
-/

namespace DataBinding.Forest

variable {f f' : Forest} {a b c n p q : NodeId} {j k : Nat}

def Under (f : Forest) (c p : NodeId) : Prop := (f.node c).parent = some p

def Below (f : Forest) : NodeId → NodeId → Prop := Relation.TransGen f.Under

instance (f : Forest) (c p : NodeId) : Decidable (f.Under c p) :=
  inferInstanceAs (Decidable ((f.node c).parent = some p))

/-- Parents and children say the same. -/
structure Linked (f : Forest) : Prop where
  agree : ∀ {p c}, c ∈ f.children p ↔ f.Under c p
  once : ∀ p, (f.children p).Nodup
  placed : ∀ {c p}, f.Under c p → (f.content c).isElement ∨ (f.content c).isText
  solid : ∀ {p}, (f.content p).takesChildren = false → f.children p = []

def Acyclic (f : Forest) : Prop := ∀ n, ¬ f.Below n n

def Straight (f : Forest) (n : NodeId) : Prop := ∀ a, Relation.ReflTransGen f.Under n a → ¬ f.Below a a

theorem Acyclic.straight (h : f.Acyclic) (n : NodeId) : f.Straight n := fun a _ => h a

theorem straight_of_top (top : (f.node n).parent = none) : f.Straight n := by
  have alone {p : NodeId} : ¬ f.Under n p := by
    rw [Under, top]
    exact nofun
  intro a path below
  rcases Relation.ReflTransGen.cases_head path with rfl | ⟨p, under, -⟩
  · obtain ⟨p, under, -⟩ := Relation.TransGen.head'_iff.1 below
    exact alone under
  · exact alone under

theorem Straight.of_under (straight : f.Straight p) (under : f.Under c p) : f.Straight c := by
  intro a path below
  rcases Relation.ReflTransGen.cases_head path with rfl | ⟨q, under', path⟩
  · -- a way round from `c` would lead through `p`
    obtain ⟨q, under', round⟩ := Relation.TransGen.head'_iff.1 below
    cases under.symm.trans under'
    exact straight p .refl (.tail' round under)
  · cases under.symm.trans under'
    exact straight a path below

theorem Straight.of_below (straight : f.Straight a) (below : f.Below n a) : f.Straight n := by
  induction below using Relation.TransGen.head_induction_on with
  | single under => exact straight.of_under under
  | head under _ ih => exact ih.of_under under

theorem Under.exists (under : f.Under c p) : c.index < f.size := by
  apply Nat.lt_of_not_le
  intro absent
  rw [Under, node_of_size_le absent] at under
  cases under

theorem children_of_size_le (absent : f.size ≤ n.index) : f.children n = [] := by
  rw [children, node_of_size_le absent]

theorem exists_of_mem_children (h : c ∈ f.children p) : p.index < f.size := by
  apply Nat.lt_of_not_le
  intro absent
  rw [children_of_size_le absent] at h
  cases h

theorem Linked.exists_of_under (h : f.Linked) (under : f.Under c p) : p.index < f.size :=
  exists_of_mem_children (h.agree.2 under)

theorem Below.exists (below : f.Below n a) : n.index < f.size := by
  obtain ⟨p, under, -⟩ := Relation.TransGen.head'_iff.1 below
  exact under.exists

theorem Linked.exists_of_below (h : f.Linked) (below : f.Below n a) : a.index < f.size := by
  obtain ⟨p, -, under⟩ := Relation.TransGen.tail'_iff.1 below
  exact h.exists_of_under under

theorem linked_empty : ({} : Forest).Linked where
  agree := ⟨fun mem => absurd (exists_of_mem_children mem) (Nat.not_lt_zero _),
    fun under => absurd under.exists (Nat.not_lt_zero _)⟩
  once p := by
    rw [children_of_size_le (Nat.zero_le _)]
    exact .nil
  placed under := absurd under.exists (Nat.not_lt_zero _)
  solid _ := children_of_size_le (Nat.zero_le _)

theorem acyclic_empty : ({} : Forest).Acyclic := fun _ below => absurd below.exists (Nat.not_lt_zero _)

def line (f : Forest) : Nat → NodeId → List NodeId
  | 0, _ => []
  | steps + 1, n => match (f.node n).parent with
    | none => []
    | some p => p :: f.line steps p

theorem line_of_under (under : f.Under c p) (k : Nat) : f.line (k + 1) c = p :: f.line k p := by
  rw [line, under]

theorem line_of_top (top : (f.node n).parent = none) (k : Nat) : f.line k n = [] := by
  cases k with
  | zero => rfl
  | succ k => rw [line, top]

theorem ancestorWithin_iff (f : Forest) (a : NodeId) (k : Nat) (n : NodeId) :
    f.ancestorWithin a k n = true ↔ a ∈ f.line k n := by
  induction k generalizing n with
  | zero => simp [ancestorWithin, line]
  | succ k ih =>
    rw [ancestorWithin, line]
    cases (f.node n).parent with
    | none => simp
    | some p =>
      simp only [Option.any_some, Bool.or_eq_true, decide_eq_true_eq, ih, List.mem_cons]
      exact or_congr_left eq_comm

theorem below_of_mem_line (h : a ∈ f.line k n) : f.Below n a := by
  induction k generalizing n with
  | zero => cases h
  | succ k ih =>
    rw [line] at h
    split at h
    · cases h
    · next p under =>
      rcases List.mem_cons.1 h with rfl | h
      · exact .single under
      · exact .head under (ih h)

theorem pairwise_line (f : Forest) (k : Nat) (n : NodeId) : (n :: f.line k n).Pairwise f.Below := by
  refine List.pairwise_cons.2 ⟨fun a => below_of_mem_line, ?_⟩
  induction k generalizing n with
  | zero => exact .nil
  | succ k ih =>
    rw [line]
    split
    · exact .nil
    · next p _ => exact List.pairwise_cons.2 ⟨fun a => below_of_mem_line, ih p⟩

theorem Linked.length_line (h : f.Linked) (straight : f.Straight n) (k : Nat) (exist : n.index < f.size) :
    (f.line k n).length < f.size := by
  -- all nodes on the way up are different, and they exist
  have distinct : ((n :: f.line k n).map NodeId.index).Nodup := by
    rw [List.Nodup, List.pairwise_map]
    apply (pairwise_line f k n).imp_of_mem
    intro a b ha _ below same
    have path : Relation.ReflTransGen f.Under n a := by
      rcases List.mem_cons.1 ha with rfl | ha
      · exact .refl
      · exact (below_of_mem_line ha).to_reflTransGen
    exact straight a path (by cases a; cases b; cases same; exact below)
  have within : (n :: f.line k n).map NodeId.index ⊆ List.range f.size := by
    intro i hi
    obtain ⟨a, ha, rfl⟩ := List.mem_map.1 hi
    rw [List.mem_range]
    rcases List.mem_cons.1 ha with rfl | ha
    · exact exist
    · exact h.exists_of_below (below_of_mem_line ha)
  have bound := (List.subperm_of_subset distinct within).length_le
  rwa [List.length_map, List.length_cons, List.length_range] at bound

theorem take_line (f : Forest) (n : NodeId) (le : j ≤ k) : (f.line k n).take j = f.line j n := by
  induction j generalizing k n with
  | zero => simp [line]
  | succ j ih =>
    obtain ⟨k, rfl⟩ : ∃ i, k = i + 1 := ⟨k - 1, by omega⟩
    simp only [line]
    cases (f.node n).parent with
    | none => rfl
    | some p => rw [List.take_succ_cons, ih p (by omega)]

theorem Linked.line_of_size_le (h : f.Linked) (straight : f.Straight n) (le : f.size ≤ k) :
    f.line k n = f.line f.size n := by
  cases top : (f.node n).parent with
  | none => rw [line_of_top top, line_of_top top]
  | some p =>
    have exist : n.index < f.size := Under.exists top
    rw [← take_line f n le, List.take_of_length_le]
    exact Nat.le_of_lt (h.length_line straight k exist)

theorem mem_line_of_below (short : (f.line k n).length < k) (below : f.Below n a) : a ∈ f.line k n := by
  induction below using Relation.TransGen.head_induction_on generalizing k with
  | single under =>
    obtain ⟨k, rfl⟩ : ∃ i, k = i + 1 := ⟨k - 1, by omega⟩
    rw [line_of_under under]
    exact List.mem_cons_self
  | head under _ ih =>
    obtain ⟨k, rfl⟩ : ∃ i, k = i + 1 := ⟨k - 1, by omega⟩
    rw [line_of_under under] at short ⊢
    exact List.mem_cons_of_mem _ (ih (Nat.lt_of_succ_lt_succ short))

theorem Linked.mem_line_iff (h : f.Linked) (straight : f.Straight n) : a ∈ f.line f.size n ↔ f.Below n a :=
  ⟨below_of_mem_line, fun below => mem_line_of_below (h.length_line straight _ below.exists) below⟩

theorem Linked.isAncestor_iff (h : f.Linked) (straight : f.Straight n) :
    f.isAncestor a n = true ↔ f.Below n a := by
  rw [isAncestor, ancestorWithin_iff, h.mem_line_iff straight]

def depth (f : Forest) (n : NodeId) : Nat := (f.line f.size n).length

theorem Linked.depth_of_under (h : f.Linked) (straight : f.Straight p) (under : f.Under c p) :
    f.depth c = f.depth p + 1 := by
  rw [depth, ← h.line_of_size_le (straight.of_under under) (Nat.le_succ _), line_of_under under, List.length_cons,
    depth]

theorem Linked.depth_lt (h : f.Linked) (straight : f.Straight n) (exist : n.index < f.size) : f.depth n < f.size :=
  h.length_line straight _ exist

def offspringWithin (f : Forest) : Nat → NodeId → List NodeId
  | 0, _ => []
  | steps + 1, n => (f.children n).flatMap fun c => c :: f.offspringWithin steps c

def offspring (f : Forest) (n : NodeId) : List NodeId := f.offspringWithin f.size n

@[simp] theorem map_descendantsWithin (f : Forest) (d k : Nat) (n : NodeId) :
    (f.descendantsWithin d k n).map Prod.snd = f.offspringWithin k n := by
  induction k generalizing d n with
  | zero => rfl
  | succ k ih => simp only [descendantsWithin, offspringWithin, List.map_flatMap, List.map_cons, ih]

@[simp] theorem map_descendants (f : Forest) (n : NodeId) : (f.descendants n).map Prod.snd = f.offspring n :=
  map_descendantsWithin f 0 f.size n

theorem findWithin_eq (f : Forest) (s : Selector) (k : Nat) (n : NodeId) :
    f.findWithin s k n = (f.offspringWithin k n).find? fun c => (f.content c).matched s := by
  induction k generalizing n with
  | zero => rfl
  | succ k ih =>
    rw [findWithin, offspringWithin, List.find?_flatMap]
    congr 1
    funext c
    rw [List.find?_cons, ih]
    cases (f.content c).matched s <;> rfl

theorem offspringWithin_congr (same : ∀ m, m = n ∨ f.Below m n → f'.children m = f.children m)
    (agree : ∀ {p c}, c ∈ f.children p → f.Under c p) (k : Nat) :
    f'.offspringWithin k n = f.offspringWithin k n := by
  induction k generalizing n with
  | zero => rfl
  | succ k ih =>
    rw [offspringWithin, offspringWithin, same n (.inl rfl)]
    apply List.flatMap_congr
    intro c hc
    rw [ih]
    rintro m (rfl | below)
    · exact same m (.inr (.single (agree hc)))
    · exact same m (.inr (below.tail (agree hc)))

theorem Linked.children_of_deep (h : f.Linked) (straight : f.Straight n) (deep : f.size ≤ f.depth n) :
    f.children n = [] := by
  apply children_of_size_le
  apply Nat.le_of_not_lt
  intro exist
  exact absurd (h.depth_lt straight exist) (Nat.not_lt_of_le deep)

theorem Linked.offspringWithin_stable (h : f.Linked) (straight : f.Straight n) (hk : f.size ≤ k + f.depth n)
    (hj : f.size ≤ j + f.depth n) : f.offspringWithin k n = f.offspringWithin j n := by
  induction k generalizing j n with
  | zero =>
    have childless := h.children_of_deep straight (by omega)
    cases j <;> simp [offspringWithin, childless]
  | succ k ih =>
    cases j with
    | zero =>
      have childless := h.children_of_deep straight (by omega)
      simp [offspringWithin, childless]
    | succ j =>
      rw [offspringWithin, offspringWithin]
      apply List.flatMap_congr
      intro c hc
      have under := h.agree.1 hc
      have deeper := h.depth_of_under straight under
      rw [ih (straight.of_under under) (j := j) (by omega) (by omega)]

theorem Linked.offspring_eq (h : f.Linked) (straight : f.Straight n) (le : f.size ≤ k) :
    f.offspringWithin k n = f.offspring n :=
  h.offspringWithin_stable straight (by omega) (by omega)

theorem Linked.below_of_mem_offspringWithin (h : f.Linked) (mem : a ∈ f.offspringWithin k n) : f.Below a n := by
  induction k generalizing n with
  | zero => cases mem
  | succ k ih =>
    obtain ⟨c, hc, mem⟩ := List.mem_flatMap.1 mem
    have under := h.agree.1 hc
    rcases List.mem_cons.1 mem with rfl | mem
    · exact .single under
    · exact (ih mem).tail under

theorem Linked.mem_offspring (h : f.Linked) (straight : f.Straight n) : a ∈ f.offspring n ↔ f.Below a n := by
  refine ⟨h.below_of_mem_offspringWithin, fun below => ?_⟩
  induction below with
  | single under =>
    rw [← h.offspring_eq straight (Nat.le_succ _), offspringWithin]
    exact List.mem_flatMap.2 ⟨a, h.agree.2 under, List.mem_cons_self⟩
  | @tail p q _ under ih =>
    rw [← h.offspring_eq straight (Nat.le_succ _), offspringWithin]
    exact List.mem_flatMap.2 ⟨p, h.agree.2 under, List.mem_cons_of_mem _ (ih (straight.of_under under))⟩

theorem comparable (hp : Relation.ReflTransGen f.Under n p) (hq : Relation.ReflTransGen f.Under n q) :
    Relation.ReflTransGen f.Under p q ∨ Relation.ReflTransGen f.Under q p := by
  apply Relation.ReflTransGen.total_of_right_unique ?_ hp hq
  intro a b c under under'
  exact Option.some.inj (under.symm.trans under')

theorem Straight.not_both (straight : f.Straight n) (hc : f.Under c n) (hp : f.Under p n) (other : c ≠ p) :
    ¬ Relation.ReflTransGen f.Under c p := by
  intro path
  rcases Relation.ReflTransGen.cases_head path with rfl | ⟨m, under, path⟩
  · exact other rfl
  · -- then `n` would be below its own child
    cases hc.symm.trans under
    exact straight.of_under hp p .refl (.head' hp path)

theorem Linked.nodup_offspringWithin (h : f.Linked) (straight : f.Straight n) (k : Nat) :
    (f.offspringWithin k n).Nodup := by
  induction k generalizing n with
  | zero => exact .nil
  | succ k ih =>
    rw [offspringWithin, List.nodup_flatMap]
    constructor
    · intro c hc
      have straight := straight.of_under (h.agree.1 hc)
      exact List.nodup_cons.2 ⟨fun mem => straight c .refl (h.below_of_mem_offspringWithin mem), ih straight⟩
    apply (h.once n).imp_of_mem
    intro c p hc hp other m mem mem'
    have path {c : NodeId} (mem : m ∈ c :: f.offspringWithin k c) : Relation.ReflTransGen f.Under m c := by
      rcases List.mem_cons.1 mem with rfl | mem
      · exact .refl
      · exact (h.below_of_mem_offspringWithin mem).to_reflTransGen
    have under := h.agree.1 hc
    have under' := h.agree.1 hp
    rcases comparable (path mem) (path mem') with up | up
    · exact straight.not_both under under' other up
    · exact straight.not_both under' under other.symm up

end DataBinding.Forest
