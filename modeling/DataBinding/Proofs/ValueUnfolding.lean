import Mathlib.Data.Finset.Card
import DataBinding.Graph.Snapshot
import DataBinding.Json.Printer
import DataBinding.Proofs.EqualityLaws

namespace DataBinding

namespace Graph

open Relation

variable {g : Graph} {s t : StoreId} {v : Value}

def Embeds (g : Graph) (s t : StoreId) : Prop :=
  ∃ key p, (key, p) ∈ (g.store s).properties ∧ Value.Inside (.object t) p.value

/-- No object that a value holds, and none that one of those leads to, leads back to itself. -/
def Grounded (g : Graph) (v : Value) : Prop :=
  ∀ s t, Value.Inside (.object s) v → ReflTransGen g.Embeds s t → ¬ TransGen g.Embeds t t

mutual

inductive Unfolds (g : Graph) : Value → Snapshot → Prop
  | undefined : Unfolds g .undefined .undefined
  | null : Unfolds g .null .null
  | bool (b : Bool) : Unfolds g (.bool b) (.bool b)
  | number (x : Double) : Unfolds g (.number x) (.number x)
  | string (s : String) : Unfolds g (.string s) (.string s)
  | array {vs : List Value} {xs : List Snapshot} (items : UnfoldsItems g vs xs) : Unfolds g (.array vs) (.array xs)
  | object {s : StoreId} {fields : List (String × Snapshot)} (held : UnfoldsFields g (g.store s).properties fields) :
    Unfolds g (.object s) (.object fields)

inductive UnfoldsItems (g : Graph) : List Value → List Snapshot → Prop
  | nil : UnfoldsItems g [] []
  | cons {v : Value} {x : Snapshot} {vs : List Value} {xs : List Snapshot} (head : Unfolds g v x)
    (tail : UnfoldsItems g vs xs) : UnfoldsItems g (v :: vs) (x :: xs)

inductive UnfoldsFields (g : Graph) : Fields Property → List (String × Snapshot) → Prop
  | nil : UnfoldsFields g [] []
  | cons {key : String} {p : Property} {x : Snapshot} {properties : Fields Property}
    {fields : List (String × Snapshot)} (head : Unfolds g p.value x) (tail : UnfoldsFields g properties fields) :
    UnfoldsFields g ((key, p) :: properties) ((key, x) :: fields)

end

def Spells (g : Graph) (v : Value) (j : Json) : Prop := ∃ x, g.Unfolds v x ∧ x.toJson = j

mutual

theorem Unfolds.unique {v : Value} {x y : Snapshot} (h : g.Unfolds v x) (h' : g.Unfolds v y) : x = y := by
  cases h with
  | array items =>
    cases h' with
    | array items' => rw [items.unique items']
  | object held =>
    cases h' with
    | object held' => rw [held.unique held']
  | _ => cases h'; rfl

theorem UnfoldsItems.unique {vs : List Value} {xs ys : List Snapshot} (h : g.UnfoldsItems vs xs)
    (h' : g.UnfoldsItems vs ys) : xs = ys := by
  cases h with
  | nil => cases h'; rfl
  | cons head tail =>
    cases h' with
    | cons head' tail' => rw [head.unique head', tail.unique tail']

theorem UnfoldsFields.unique {properties : Fields Property} {fields fields' : List (String × Snapshot)}
    (h : g.UnfoldsFields properties fields) (h' : g.UnfoldsFields properties fields') : fields = fields' := by
  cases h with
  | nil => cases h'; rfl
  | cons head tail =>
    cases h' with
    | cons head' tail' => rw [head.unique head', tail.unique tail']

end

mutual

theorem Unfolds.acc {v : Value} {x : Snapshot} {t : StoreId} (h : g.Unfolds v x)
    (inside : Value.Inside (.object t) v) : Acc (flip g.Embeds) t := by
  cases h with
  | array items =>
    cases inside with
    | item mem inside => exact items.acc _ mem inside
  | object held =>
    cases inside with
    | self =>
      constructor
      rintro u ⟨key, p, mem, inside⟩
      exact held.acc _ mem inside
  | _ => cases inside

theorem UnfoldsItems.acc {vs : List Value} {xs : List Snapshot} {t : StoreId} (h : g.UnfoldsItems vs xs) :
    ∀ v ∈ vs, Value.Inside (.object t) v → Acc (flip g.Embeds) t := by
  cases h with
  | nil => exact fun _ mem => absurd mem List.not_mem_nil
  | cons head tail =>
    intro v mem inside
    rcases List.mem_cons.1 mem with rfl | mem
    · exact head.acc inside
    · exact tail.acc v mem inside

theorem UnfoldsFields.acc {properties : Fields Property} {fields : List (String × Snapshot)} {t : StoreId}
    (h : g.UnfoldsFields properties fields) :
    ∀ f ∈ properties, Value.Inside (.object t) f.2.value → Acc (flip g.Embeds) t := by
  cases h with
  | nil => exact fun _ mem => absurd mem List.not_mem_nil
  | cons head tail =>
    intro f mem inside
    rcases List.mem_cons.1 mem with rfl | mem
    · exact head.acc inside
    · exact tail.acc f mem inside

end

theorem not_embeds_of_acc (h : Acc (flip g.Embeds) t) : ¬ TransGen g.Embeds t t := by
  induction h with
  | intro t _ ih =>
    intro round
    obtain ⟨u, embeds, back⟩ := TransGen.head'_iff.1 round
    exact ih u embeds (.tail' back embeds)

theorem Unfolds.grounded {x : Snapshot} (h : g.Unfolds v x) : g.Grounded v := by
  intro s t inside path
  apply not_embeds_of_acc
  induction path with
  | refl => exact h.acc inside
  | tail _ embeds ih => exact ih.inv embeds

open Classical in
noncomputable def reach (g : Graph) (s : StoreId) : Nat :=
  ((Finset.range g.stores.size).filter fun i => TransGen g.Embeds s ⟨i⟩).card

theorem reach_lt (embeds : g.Embeds s t) (exist : t.index < g.stores.size) (straight : ¬ TransGen g.Embeds t t) :
    g.reach t < g.reach s := by
  classical
  apply Finset.card_lt_card
  rw [Finset.ssubset_iff_of_subset]
  · refine ⟨t.index, ?_, ?_⟩
    · exact Finset.mem_filter.2 ⟨Finset.mem_range.2 exist, .single embeds⟩
    · exact fun mem => straight (Finset.mem_filter.1 mem).2
  · intro i mem
    obtain ⟨exist, leads⟩ := Finset.mem_filter.1 mem
    exact Finset.mem_filter.2 ⟨exist, .head embeds leads⟩

theorem reach_lt_size (exist : s.index < g.stores.size) (straight : ¬ TransGen g.Embeds s s) :
    g.reach s < g.stores.size := by
  classical
  have fewer : (Finset.range g.stores.size).filter (fun i => TransGen g.Embeds s ⟨i⟩) ⊂ Finset.range g.stores.size := by
    rw [Finset.ssubset_iff_of_subset (Finset.filter_subset _ _)]
    exact ⟨s.index, Finset.mem_range.2 exist, fun mem => straight (Finset.mem_filter.1 mem).2⟩
  have lt := Finset.card_lt_card fewer
  rwa [Finset.card_range] at lt

section

variable {object : StoreId → Snapshot}

mutual

theorem unfolds_unfold (v : Value) (h : ∀ t, Value.Inside (.object t) v → g.Unfolds (.object t) (object t)) :
    g.Unfolds v (v.unfold object) := by
  match v with
  | .undefined => exact .undefined
  | .null => exact .null
  | .bool b => exact .bool b
  | .number x => exact .number x
  | .string s => exact .string s
  | .array vs => exact .array (unfoldsItems_unfold vs fun v mem t inside => h t (.item mem inside))
  | .object s => exact h s .self

theorem unfoldsItems_unfold (vs : List Value)
    (h : ∀ v ∈ vs, ∀ t, Value.Inside (.object t) v → g.Unfolds (.object t) (object t)) :
    g.UnfoldsItems vs (Value.unfoldItems object vs) := by
  match vs with
  | [] => exact .nil
  | v :: vs =>
    exact .cons (unfolds_unfold v (h v List.mem_cons_self))
      (unfoldsItems_unfold vs fun v mem => h v (List.mem_cons_of_mem _ mem))

end

theorem unfoldsFields_unfold {properties : Fields Property}
    (h : ∀ f ∈ properties, ∀ t, Value.Inside (.object t) f.2.value → g.Unfolds (.object t) (object t)) :
    g.UnfoldsFields properties (properties.map fun (key, p) => (key, p.value.unfold object)) := by
  induction properties with
  | nil => exact .nil
  | cons f rest ih =>
    exact .cons (unfolds_unfold _ (h f List.mem_cons_self)) (ih fun f mem => h f (List.mem_cons_of_mem _ mem))

end

/-- A snapshot that goes deeper than the stores that are there is not cut off. -/
theorem unfolds_storeWithin {depth : Nat} (straight : ∀ t, ReflTransGen g.Embeds s t → ¬ TransGen g.Embeds t t)
    (deep : s.index < g.stores.size → g.reach s < depth) : g.Unfolds (.object s) (g.storeWithin depth s) := by
  induction depth generalizing s with
  | zero =>
    have absent : g.stores.size ≤ s.index := Nat.le_of_not_lt fun exist => Nat.not_lt_zero _ (deep exist)
    have empty : (g.store s).properties = [] := by rw [store_of_size_le absent]
    apply Unfolds.object
    rw [empty]
    exact .nil
  | succ depth ih =>
    apply Unfolds.object
    apply unfoldsFields_unfold
    rintro ⟨key, p⟩ mem t inside
    have embeds : g.Embeds s t := ⟨key, p, mem, inside⟩
    have exist : s.index < g.stores.size := by
      apply Nat.lt_of_not_le
      intro absent
      rw [store_of_size_le absent] at mem
      cases mem
    apply ih
    · exact fun u path => straight u (.head embeds path)
    · intro exist'
      -- `s` leads to `t` and to all that `t` leads to, and `t` does not lead to itself
      have fewer := reach_lt embeds exist' (straight t (.single embeds))
      have bound := deep exist
      omega

theorem Grounded.unfolds (h : g.Grounded v) : g.Unfolds v (g.snapshot v) := by
  apply unfolds_unfold
  intro s inside
  apply unfolds_storeWithin
  · exact fun t path => h s t inside path
  · exact fun exist => reach_lt_size exist (h s s inside .refl)

theorem spells_iff {j : Json} : g.Spells v j ↔ g.Grounded v ∧ g.toJson v = j := by
  constructor
  · rintro ⟨x, unfolds, rfl⟩
    have grounded := unfolds.grounded
    refine ⟨grounded, ?_⟩
    rw [toJson, grounded.unfolds.unique unfolds]
  · rintro ⟨grounded, rfl⟩
    exact ⟨g.snapshot v, grounded.unfolds, rfl⟩

end Graph

namespace Double

variable {x y : Double}

theorem same_cases (h : x.same y = true) : x = y ∨ ∃ s t, x = signedZero s ∧ y = signedZero t := by
  cases x with
  | nan => cases h
  | signed s a =>
    cases y with
    | nan => cases h
    | signed t b =>
      simp only [same, Bool.and_eq_true, Bool.or_eq_true, decide_eq_true_eq] at h
      obtain ⟨rfl, rfl | zero⟩ := h
      · exact .inl rfl
      · refine .inr ⟨s, t, ?_, ?_⟩ <;> exact congrArg _ (Fin.ext zero)

theorem ofDouble_of_same (h : x.same y = true) : Json.ofDouble x = Json.ofDouble y := by
  have whole (s : Bool) : (signedZero s).safeInt? = some 0 := by cases s <;> decide +kernel
  have zero (s : Bool) : Json.ofDouble (signedZero s) = .integer 0 := by rw [Json.ofDouble, whole]
  rcases same_cases h with rfl | ⟨s, t, rfl, rfl⟩
  · rfl
  · rw [zero, zero]

end Double

namespace Value

variable {a b : Value} {as bs : List Value} {s : StoreId}

mutual

theorem toJson_unfold_of_strictEq {a b : Value} (object : StoreId → Snapshot) (h : a.strictEq b = true) :
    (a.unfold object).toJson = (b.unfold object).toJson := by
  match a, b with
  | .undefined, .undefined | .null, .null => rfl
  | .bool _, .bool _ | .string _, .string _ | .object _, .object _ =>
    simp only [strictEq, decide_eq_true_eq] at h
    rw [h]
  | .number _, .number _ => exact Double.ofDouble_of_same h
  | .array as, .array bs =>
    simp only [unfold, Snapshot.toJson]
    rw [toJsonItems_of_strictEqItems object h]

theorem toJsonItems_of_strictEqItems {as bs : List Value} (object : StoreId → Snapshot)
    (h : strictEqItems as bs = true) :
    Snapshot.toJsonItems (unfoldItems object as) = Snapshot.toJsonItems (unfoldItems object bs) := by
  match as, bs with
  | [], [] => rfl
  | a :: as, b :: bs =>
    simp only [strictEqItems, Bool.and_eq_true] at h
    simp only [unfoldItems, Snapshot.toJsonItems]
    rw [toJson_unfold_of_strictEq object h.1, toJsonItems_of_strictEqItems object h.2]

end

theorem exists_of_strictEqItems (h : strictEqItems as bs = true) (mem : b ∈ bs) :
    ∃ a ∈ as, a.strictEq b = true := by
  induction as generalizing bs with
  | nil =>
    cases bs with
    | nil => cases mem
    | cons b' bs => cases h
  | cons a as ih =>
    cases bs with
    | nil => cases mem
    | cons b' bs =>
      simp only [strictEqItems, Bool.and_eq_true] at h
      rcases List.mem_cons.1 mem with rfl | mem
      · exact ⟨a, List.mem_cons_self, h.1⟩
      · obtain ⟨a', mem', same⟩ := ih h.2 mem
        exact ⟨a', List.mem_cons_of_mem _ mem', same⟩

theorem inside_of_strictEq (h : a.strictEq b = true) (inside : Inside (.object s) b) : Inside (.object s) a := by
  induction inside generalizing a with
  | self =>
    cases a with
    | object t =>
      simp only [strictEq, decide_eq_true_eq] at h
      exact h ▸ .self
    | _ => cases h
  | item mem _ ih =>
    cases a with
    | array as =>
      obtain ⟨a', mem', same⟩ := exists_of_strictEqItems h mem
      exact .item mem' (ih same)
    | _ => cases h

/-- Values that are equal strictly show one text and have one snapshot. Where no object leads back to itself this is the
document that either of them amounts to when its objects are replaced to the end. -/
theorem shown_of_strictEq (g : Graph) (h : a.strictEq b = true) :
    a.text = b.text ∧ g.toJson a = g.toJson b ∧
      (g.Grounded a → ∀ j, (g.Spells a j ↔ g.toJson a = j) ∧ (g.Spells b j ↔ g.toJson a = j)) := by
  have same : g.toJson a = g.toJson b := toJson_unfold_of_strictEq _ h
  refine ⟨text_of_strictEq h, same, fun grounded j => ?_⟩
  have grounded' : g.Grounded b := fun s t inside => grounded s t (inside_of_strictEq h inside)
  rw [Graph.spells_iff, Graph.spells_iff, same]
  simp only [grounded, grounded', true_and, and_self]

def nested : Graph :=
  (Engine.after {} [.createStore [("n", .number .nan)],
    .createStore [("o", .object ⟨0⟩), ("u", .undefined)]]).graph

theorem unfolds_nested :
    nested.Unfolds (.object ⟨1⟩) (.object [("o", .object [("n", .number .nan)]), ("u", .undefined)]) := by
  have inner : nested.Unfolds (.object ⟨0⟩) (.object [("n", .number .nan)]) := .object (.cons (.number _) .nil)
  exact .object (.cons inner (.cons .undefined .nil))

def signed (negative : Bool) : Value :=
  .array [.number (.signedZero negative), .object ⟨1⟩, .array [.null, .number (.signedZero negative)]]

theorem signed_shown_of_strictEq :
    (signed true).strictEq (signed false) = true ∧ (signed true).text = (signed false).text ∧
      nested.toJson (signed true) = nested.toJson (signed false) ∧
      (∀ j, (nested.Spells (signed true) j ↔ nested.toJson (signed true) = j) ∧
        (nested.Spells (signed false) j ↔ nested.toJson (signed true) = j)) ∧
      (signed true).text = "0,[object Object],,0" ∧
      (nested.toJson (signed true)).render = "[0,\x7b\"o\":\x7b\"n\":null\x7d,\"u\":null\x7d,[null,0]]" := by
  have equal : (signed true).strictEq (signed false) = true := by decide +kernel
  obtain ⟨text, json, spells⟩ := shown_of_strictEq nested equal
  have grounded : nested.Grounded (signed true) := by
    apply Graph.Unfolds.grounded
    exact .array (.cons (.number _) (.cons unfolds_nested (.cons (.array (.cons .null (.cons (.number _) .nil))) .nil)))
  exact ⟨equal, text, json, spells grounded, by decide +kernel, by decide +kernel⟩

end Value

end DataBinding
