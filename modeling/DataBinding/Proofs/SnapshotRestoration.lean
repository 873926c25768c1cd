import DataBinding.Proofs.DoubleNumbers
import DataBinding.Proofs.ValueUnfolding

namespace DataBinding

namespace Json

variable {j x : Json} {items : List Json} {fields : List (String × Json)} {P Q : Json → Prop}

inductive Part (x : Json) : Json → Prop
  | self : Part x x
  | item {items : List Json} {j : Json} (mem : j ∈ items) (part : Part x j) : Part x (.array items)
  | member {fields : List (String × Json)} {key : String} {j : Json} (mem : (key, j) ∈ fields) (part : Part x j) :
    Part x (.object fields)

def Every (P : Json → Prop) (j : Json) : Prop := ∀ x, Part x j → P x

theorem Every.self (h : j.Every P) : P j := h j .self

theorem Every.imp (h : j.Every P) (imp : ∀ x, P x → Q x) : j.Every Q := fun x part => imp x (h x part)

theorem every_null : null.Every P ↔ P .null := ⟨Every.self, by rintro h _ ⟨⟩; exact h⟩

theorem every_integer {i : Int} : (integer i).Every P ↔ P (.integer i) := ⟨Every.self, by rintro h _ ⟨⟩; exact h⟩

theorem every_real {x : Double} : (real x).Every P ↔ P (.real x) := ⟨Every.self, by rintro h _ ⟨⟩; exact h⟩

theorem every_array : (array items).Every P ↔ P (.array items) ∧ ∀ j ∈ items, j.Every P := by
  constructor
  · exact fun h => ⟨h.self, fun j mem x part => h x (.item mem part)⟩
  · rintro ⟨self, each⟩ x (_ | ⟨mem, part⟩)
    · exact self
    · exact each _ mem x part

theorem every_object : (object fields).Every P ↔ P (.object fields) ∧ ∀ f ∈ fields, f.2.Every P := by
  constructor
  · exact fun h => ⟨h.self, fun f mem x part => h x (.member mem part)⟩
  · rintro ⟨self, each⟩ x (_ | _ | ⟨mem, part⟩)
    · exact self
    · exact each _ mem x part

/-- What documents are made of: integers of 64 bits, finite numbers, and objects with their members in ascending
order. -/
def Sound : Json → Prop
  | .integer i => -twoTo 63 ≤ i ∧ i < twoTo 64
  | .real x => x.isFinite = true
  | .object fields => Fields.Ascending fields
  | _ => True

instance : (j : Json) → Decidable j.Sound
  | .integer i => inferInstanceAs (Decidable (-twoTo 63 ≤ i ∧ i < twoTo 64))
  | .real x => inferInstanceAs (Decidable (x.isFinite = true))
  | .object fields => inferInstanceAs (Decidable (Fields.Ascending fields))
  | .null | .bool _ | .string _ | .array _ => isTrue trivial

def Canonical : Json → Prop
  | .integer i => i.natAbs < twoTo 53
  | .real x => ¬ x.Safe
  | _ => True

mutual

def canonical : Json → Json
  | .null => .null
  | .bool b => .bool b
  | .integer i => canonicalNumber (.ofInt i)
  | .real x => canonicalNumber x
  | .string s => .string s
  | .array items => .array (canonicalItems items)
  | .object fields => .object (canonicalFields fields)

def canonicalItems : List Json → List Json
  | [] => []
  | j :: js => j.canonical :: canonicalItems js

def canonicalFields : List (String × Json) → List (String × Json)
  | [] => []
  | (key, j) :: rest => (key, j.canonical) :: canonicalFields rest

end

theorem canonicalNumber_ofInt_eq_iff {i : Int} : canonicalNumber (.ofInt i) = .integer i ↔ i.natAbs < twoTo 53 := by
  rw [canonicalNumber]
  constructor
  · intro same
    split at same
    · next safe =>
      rw [integer.injEq] at same
      exact same ▸ safe.2
    · cases same
  · intro small
    have is := Double.value_ofInt small
    rw [if_pos (Double.safe_iff.2 ⟨i, is, small⟩), is, Rat.num_intCast]

theorem canonicalNumber_eq_iff {x : Double} : canonicalNumber x = .real x ↔ ¬ x.Safe := by
  rw [canonicalNumber]
  split <;> simp_all

mutual

theorem canonical_eq_self_iff (j : Json) : j.canonical = j ↔ j.Every Canonical := by
  match j with
  | .null | .bool _ | .string _ =>
    refine ⟨fun _ => ?_, fun _ => rfl⟩
    rintro _ ⟨⟩
    trivial
  | .integer i => rw [canonical, canonicalNumber_ofInt_eq_iff, every_integer, Canonical]
  | .real x => rw [canonical, canonicalNumber_eq_iff, every_real, Canonical]
  | .array items =>
    rw [canonical, array.injEq, canonicalItems_eq_self_iff items, every_array]
    exact (and_iff_right trivial).symm
  | .object fields =>
    rw [canonical, object.injEq, canonicalFields_eq_self_iff fields, every_object]
    exact (and_iff_right trivial).symm

theorem canonicalItems_eq_self_iff (items : List Json) :
    canonicalItems items = items ↔ ∀ j ∈ items, j.Every Canonical := by
  match items with
  | [] => simp [canonicalItems]
  | j :: js =>
    rw [canonicalItems, List.cons.injEq, canonical_eq_self_iff j, canonicalItems_eq_self_iff js, List.forall_mem_cons]

theorem canonicalFields_eq_self_iff (fields : List (String × Json)) :
    canonicalFields fields = fields ↔ ∀ f ∈ fields, f.2.Every Canonical := by
  match fields with
  | [] => simp [canonicalFields]
  | (key, j) :: rest =>
    rw [canonicalFields, List.cons.injEq, Prod.mk.injEq, canonical_eq_self_iff j, canonicalFields_eq_self_iff rest,
      List.forall_mem_cons]
    exact and_congr_left' (and_iff_right rfl)

end

@[simp] theorem names_canonicalFields (fields : List (String × Json)) :
    Fields.names (canonicalFields fields) = Fields.names fields := by
  induction fields with
  | nil => rfl
  | cons f rest ih => exact congrArg (f.1 :: ·) ih

theorem ofDouble_cases (x : Double) : ofDouble x = .null ∨ x.isFinite = true ∧ ofDouble x = canonicalNumber x := by
  cases finite : x.isFinite with
  | true => exact .inr ⟨rfl, ofDouble_eq finite⟩
  | false =>
    left
    cases x with
    | nan => rfl
    | signed negative rank =>
      have infinite := decide_eq_false_iff_not.1 finite
      have none : (Double.signed negative rank).safeInt? = none := if_neg fun whole => infinite whole.1
      rw [ofDouble, none, finite]
      rfl

theorem sound_of_small {i : Int} (small : i.natAbs < twoTo 53) : (integer i).Sound := by
  have least : twoTo 53 ≤ twoTo 63 := Double.twoTo_le (by decide)
  have most : twoTo 63 ≤ twoTo 64 := Double.twoTo_le (by decide)
  rw [Sound]
  omega

theorem natAbs_lt_of_sound {i : Int} (sound : (integer i).Sound) : i.natAbs < twoTo 65 := by
  obtain ⟨least, most⟩ := sound
  have room : twoTo 64 ≤ twoTo 65 := Double.twoTo_le (by decide)
  have room' : twoTo 63 < twoTo 65 := Nat.pow_lt_pow_right Nat.one_lt_two (by decide)
  omega

theorem every_ofDouble (x : Double) : (ofDouble x).Every fun j => j.Sound ∧ j.Canonical := by
  rcases ofDouble_cases x with none | ⟨finite, number⟩
  · rw [none, every_null]
    exact ⟨trivial, trivial⟩
  · rw [number, canonicalNumber]
    split
    · next safe => exact every_integer.2 ⟨sound_of_small safe.2, safe.2⟩
    · next other => exact every_real.2 ⟨finite, other⟩

end Json

mutual

theorem Snapshot.every_toJson (x : Snapshot) : x.toJson.Every fun j => j.Sound ∧ j.Canonical := by
  match x with
  | .undefined | .null | .bool _ | .string _ =>
    rintro _ ⟨⟩
    exact ⟨trivial, trivial⟩
  | .number x => exact Json.every_ofDouble x
  | .array items => exact Json.every_array.2 ⟨⟨trivial, trivial⟩, every_toJsonItems items⟩
  | .object fields =>
    refine Json.every_object.2 ⟨⟨Fields.ascending_sorted _, trivial⟩, fun f mem => ?_⟩
    exact every_toJsonFields fields f (Fields.mem_sorted mem)

theorem Snapshot.every_toJsonItems (items : List Snapshot) :
    ∀ j ∈ Snapshot.toJsonItems items, j.Every fun j => j.Sound ∧ j.Canonical := by
  match items with
  | [] => exact fun _ => nofun
  | x :: xs => exact List.forall_mem_cons.2 ⟨x.every_toJson, every_toJsonItems xs⟩

theorem Snapshot.every_toJsonFields (fields : List (String × Snapshot)) :
    ∀ f ∈ Snapshot.toJsonFields fields, f.2.Every fun j => j.Sound ∧ j.Canonical := by
  match fields with
  | [] => exact fun _ => nofun
  | (key, x) :: rest => exact List.forall_mem_cons.2 ⟨x.every_toJson, every_toJsonFields rest⟩

end

namespace Graph

variable {g g' : Graph} {s : StoreId} {v : Value}

def Prolongs (g g' : Graph) : Prop := g.stores.entries.toList <+: g'.stores.entries.toList

theorem Prolongs.store (h : Prolongs g g') (exist : s.index < g.stores.size) : g'.store s = g.store s := by
  obtain ⟨added, all⟩ := h
  simp only [Graph.store, Table.get, Array.getD_eq_getD_getElem?, ← Array.getElem?_toList]
  rw [← all, List.getElem?_append_left exist]

theorem prolongs_createStore (g : Graph) (pairs : List (String × Value)) : Prolongs g (g.createStore pairs).2 :=
  ⟨_, (Array.toList_push ..).symm⟩

theorem createStore_lt (g : Graph) (pairs : List (String × Value)) :
    (g.createStore pairs).1.index < (g.createStore pairs).2.stores.size := by
  rw [size_createStore]
  exact Nat.lt_succ_self _

theorem properties_createStore (g : Graph) {pairs : List (String × Value)} (distinct : (Fields.names pairs).Nodup) :
    ((g.createStore pairs).2.store (g.createStore pairs).1).properties =
      pairs.map fun (key, v) => (key, { value := v }) := by
  rw [store_createStore, createStore, if_pos rfl, Fields.ofPairs_of_nodup]
  rwa [Fields.names, List.map_map]

mutual

theorem prolongs_ofJson (g : Graph) (j : Json) : Prolongs g (g.ofJson j).2 := by
  match j with
  | .null | .bool _ | .integer _ | .real _ | .string _ => exact List.prefix_rfl
  | .array items => exact prolongs_ofJsonItems g items
  | .object fields => exact (prolongs_ofJsonFields g fields).trans (prolongs_createStore _ _)

theorem prolongs_ofJsonItems (g : Graph) (items : List Json) : Prolongs g (g.ofJsonItems items).2 := by
  match items with
  | [] => exact List.prefix_rfl
  | j :: js => exact (prolongs_ofJson g j).trans (prolongs_ofJsonItems _ js)

theorem prolongs_ofJsonFields (g : Graph) (fields : List (String × Json)) : Prolongs g (g.ofJsonFields fields).2 := by
  match fields with
  | [] => exact List.prefix_rfl
  | (key, j) :: rest => exact (prolongs_ofJson g j).trans (prolongs_ofJsonFields _ rest)

end

@[simp] theorem names_ofJsonFields (g : Graph) (fields : List (String × Json)) :
    Fields.names (g.ofJsonFields fields).1 = Fields.names fields := by
  induction fields generalizing g with
  | nil => rfl
  | cons f rest ih => exact congrArg (f.1 :: ·) (ih _)

mutual

theorem unfolds_ofJson {j : Json} (sound : j.Every Json.Sound) {g g' : Graph} (later : Prolongs (g.ofJson j).2 g') :
    ∃ x, g'.Unfolds (g.ofJson j).1 x ∧ x.toJson = j.canonical := by
  match j with
  | .null => exact ⟨.null, .null, rfl⟩
  | .bool b => exact ⟨.bool b, .bool b, rfl⟩
  | .string s => exact ⟨.string s, .string s, rfl⟩
  | .integer i =>
    exact ⟨.number (.ofInt i), .number _, Json.ofDouble_eq (Double.isFinite_ofInt (Json.natAbs_lt_of_sound sound.self))⟩
  | .real x => exact ⟨.number x, .number x, Json.ofDouble_eq sound.self⟩
  | .array items =>
    obtain ⟨xs, unfolds, json⟩ := unfolds_ofJsonItems (Json.every_array.1 sound).2 later
    exact ⟨.array xs, .array unfolds, congrArg Json.array json⟩
  | .object fields =>
    obtain ⟨ascending, each⟩ := Json.every_object.1 sound
    have inner := (prolongs_createStore (g.ofJsonFields fields).2 (g.ofJsonFields fields).1).trans later
    obtain ⟨xs, unfolds, json⟩ := unfolds_ofJsonFields each inner
    have kept := later.store (createStore_lt (g.ofJsonFields fields).2 (g.ofJsonFields fields).1)
    refine ⟨.object xs, Unfolds.object (kept ▸ ?_), ?_⟩
    · rw [ofJson, properties_createStore]
      · exact unfolds
      · simpa using ascending.nodup
    · rw [Snapshot.toJson, json, Json.canonical, Fields.sorted_of_ascending]
      rwa [Fields.Ascending, Json.names_canonicalFields]

theorem unfolds_ofJsonItems {items : List Json} (sound : ∀ j ∈ items, j.Every Json.Sound) {g g' : Graph}
    (later : Prolongs (g.ofJsonItems items).2 g') :
    ∃ xs, g'.UnfoldsItems (g.ofJsonItems items).1 xs ∧ Snapshot.toJsonItems xs = Json.canonicalItems items := by
  match items with
  | [] => exact ⟨[], .nil, rfl⟩
  | j :: js =>
    obtain ⟨first, others⟩ := List.forall_mem_cons.1 sound
    obtain ⟨x, head, json⟩ := unfolds_ofJson first ((prolongs_ofJsonItems _ js).trans later)
    obtain ⟨xs, tail, jsons⟩ := unfolds_ofJsonItems others later
    exact ⟨x :: xs, .cons head tail, congrArg₂ List.cons json jsons⟩

theorem unfolds_ofJsonFields {fields : List (String × Json)} (sound : ∀ f ∈ fields, f.2.Every Json.Sound)
    {g g' : Graph} (later : Prolongs (g.ofJsonFields fields).2 g') :
    ∃ xs, g'.UnfoldsFields ((g.ofJsonFields fields).1.map fun (key, v) => (key, { value := v })) xs ∧
      Snapshot.toJsonFields xs = Json.canonicalFields fields := by
  match fields with
  | [] => exact ⟨[], .nil, rfl⟩
  | (key, j) :: rest =>
    obtain ⟨first, others⟩ := List.forall_mem_cons.1 sound
    obtain ⟨x, head, json⟩ := unfolds_ofJson first ((prolongs_ofJsonFields _ rest).trans later)
    obtain ⟨xs, tail, jsons⟩ := unfolds_ofJsonFields others later
    exact ⟨(key, x) :: xs, .cons head tail, congrArg₂ (fun j js => (key, j) :: js) json jsons⟩

end

/-- The value of a document has the document as its snapshot, with each number in canonical form; this is the document
itself exactly if all its numbers are in that form. The snapshot of a value that leads nowhere back is the snapshot of
its own value again, whatever graph that is made in. -/
theorem toJson_ofJson {j : Json} (sound : j.Every Json.Sound) (g : Graph) :
    (g.ofJson j).2.Spells (g.ofJson j).1 j.canonical ∧ (g.ofJson j).2.toJson (g.ofJson j).1 = j.canonical ∧
      ((g.ofJson j).2.toJson (g.ofJson j).1 = j ↔ j.Every Json.Canonical) ∧
      ∀ (h : Graph) (v : Value), h.Grounded v →
        (g.ofJson (h.toJson v)).2.Spells (g.ofJson (h.toJson v)).1 (h.toJson v) ∧
          (g.ofJson (h.toJson v)).2.toJson (g.ofJson (h.toJson v)).1 = h.toJson v := by
  have spells {j : Json} (sound : j.Every Json.Sound) : (g.ofJson j).2.Spells (g.ofJson j).1 j.canonical :=
    unfolds_ofJson sound List.prefix_rfl
  have restored := (spells_iff.1 (spells sound)).2
  refine ⟨spells sound, restored, ?_, fun h v _ => ?_⟩
  · rw [restored, Json.canonical_eq_self_iff]
  · have every := (h.snapshot v).every_toJson
    have again := spells (every.imp fun _ => And.left)
    rw [(Json.canonical_eq_self_iff _).2 (every.imp fun _ => And.right)] at again
    exact ⟨again, (spells_iff.1 again).2⟩

/-- Numbers that are not in canonical form: an integer without a double of its own, a whole number with decimals and a
zero with a sign. -/
def unusual : Json :=
  .object [("a", .array [.integer 9007199254740993, .real .one, .real (.signedZero true)]),
    ("b", .object [("c", .null)])]

theorem unusual_toJson_ofJson :
    unusual.Every Json.Sound ∧ Value.nested.Grounded (.object ⟨1⟩) ∧
      (Value.nested.ofJson unusual).2.Spells (Value.nested.ofJson unusual).1 unusual.canonical ∧
      (Value.nested.ofJson unusual).2.toJson (Value.nested.ofJson unusual).1 = unusual.canonical ∧
      ((Value.nested.ofJson unusual).2.toJson (Value.nested.ofJson unusual).1 = unusual ↔
        unusual.Every Json.Canonical) ∧ ¬ unusual.Every Json.Canonical ∧
      ((Value.nested.ofJson unusual).2.toJson (Value.nested.ofJson unusual).1).render =
        "\x7b\"a\":[9007199254740992,1,0],\"b\":\x7b\"c\":null\x7d\x7d" ∧
      (Value.nested.ofJson (Value.nested.toJson (.object ⟨1⟩))).2.toJson
        (Value.nested.ofJson (Value.nested.toJson (.object ⟨1⟩))).1 = Value.nested.toJson (.object ⟨1⟩) ∧
      (Value.nested.toJson (.object ⟨1⟩)).render = "\x7b\"o\":\x7b\"n\":null\x7d,\"u\":null\x7d" := by
  have sound : unusual.Every Json.Sound := by
    simp only [unusual, Json.every_object, Json.every_array, List.forall_mem_cons, Json.every_integer, Json.every_real,
      Json.every_null, List.not_mem_nil, false_imp_iff, implies_true, and_true]
    decide +kernel
  have numbers : ¬ unusual.Every Json.Canonical := by
    intro every
    have first : Json.Canonical (.integer 9007199254740993) :=
      every _ (.member List.mem_cons_self (.item List.mem_cons_self .self))
    rw [Json.Canonical] at first
    exact absurd first (by decide)
  have grounded : Value.nested.Grounded (.object ⟨1⟩) := Value.unfolds_nested.grounded
  obtain ⟨spells, restored, same, again⟩ := toJson_ofJson sound Value.nested
  exact ⟨sound, grounded, spells, restored, same, numbers, by decide +kernel, (again _ _ grounded).2, by decide +kernel⟩

end Graph

end DataBinding
