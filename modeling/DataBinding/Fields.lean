/-!
Fields: names with contents, each name once. `set` keeps the place of a name it finds and puts a new one at
the end; `insert` keeps ascending order.
-/

namespace DataBinding

abbrev Fields (α : Type) := List (String × α)

namespace Fields

variable {α : Type}

def get? (name : String) : Fields α → Option α
  | [] => none
  | (n, a) :: rest => if n = name then some a else get? name rest

def set (name : String) (a : α) : Fields α → Fields α
  | [] => [(name, a)]
  | (n, b) :: rest => if n = name then (n, a) :: rest else (n, b) :: set name a rest

def insert (name : String) (a : α) : Fields α → Fields α
  | [] => [(name, a)]
  | (n, b) :: rest =>
    if n = name then (n, a) :: rest
    else if name < n then (name, a) :: (n, b) :: rest
    else (n, b) :: insert name a rest

def erase (name : String) (fields : Fields α) : Fields α := fields.filter fun (n, _) => n ≠ name

def names (fields : Fields α) : List String := fields.map Prod.fst

def contains (name : String) (fields : Fields α) : Bool := (fields.get? name).isSome

/-- Fields in the order of their first mention; of two contents for one name the later stays. -/
def ofPairs (pairs : List (String × α)) : Fields α :=
  pairs.foldl (fun fields (name, a) => fields.set name a) []

def sorted (pairs : List (String × α)) : Fields α :=
  pairs.foldl (fun fields (name, a) => fields.insert name a) []

@[simp] theorem get?_set (name n : String) (a : α) (fields : Fields α) :
    (fields.set name a).get? n = if n = name then some a else fields.get? n := by
  induction fields with
  | nil => grind [set, get?]
  | cons f rest ih => grind [set, get?]

@[simp] theorem get?_erase (name n : String) (fields : Fields α) :
    (fields.erase name).get? n = if n = name then none else fields.get? n := by
  induction fields with
  | nil => simp [erase, get?]
  | cons f rest ih =>
    simp only [erase] at ih
    by_cases h : f.1 = name
    · simp only [erase, List.filter, h, ne_eq, not_true_eq_false, decide_false, ih, get?]
      grind
    · simp only [erase, List.filter, h, ne_eq, not_false_eq_true, decide_true, ih, get?]
      grind

theorem names_set (name : String) (a : α) (fields : Fields α) :
    (fields.set name a).names = if name ∈ fields.names then fields.names else fields.names ++ [name] := by
  induction fields with
  | nil => simp [set, names]
  | cons f rest ih =>
    by_cases h : f.1 = name
    · simp [set, names, h]
    · have ih' := ih
      simp only [names] at ih'
      by_cases hm : name ∈ rest.map Prod.fst
      · simp [set, names, h, ih', hm]
      · simp [set, names, h, ih', hm, Ne.symm h]

theorem set_of_not_mem {name : String} (a : α) {fields : Fields α} (h : name ∉ fields.names) :
    fields.set name a = fields ++ [(name, a)] := by
  induction fields with
  | nil => rfl
  | cons f rest ih =>
    simp only [names, List.map_cons, List.mem_cons, not_or] at h
    rw [set, if_neg (Ne.symm h.1), ih h.2]
    rfl

theorem foldl_eq_self {add : Fields α → String × α → Fields α} {P : Fields α → Prop}
    (start : ∀ {fields rest : Fields α}, P (fields ++ rest) → P fields)
    (next : ∀ {fields : Fields α} {f : String × α}, P (fields ++ [f]) → add fields f = fields ++ [f])
    {pairs : List (String × α)} (h : P pairs) : pairs.foldl add [] = pairs := by
  suffices added : ∀ fields : Fields α, P (fields ++ pairs) → pairs.foldl add fields = fields ++ pairs from added [] h
  clear h
  induction pairs with
  | nil => simp
  | cons f rest ih =>
    intro fields h
    rw [← List.singleton_append, ← List.append_assoc] at h ⊢
    rw [List.singleton_append, List.foldl_cons, next (start h), ih _ h]

theorem ofPairs_of_nodup {pairs : List (String × α)} (h : (names pairs).Nodup) : ofPairs pairs = pairs := by
  apply foldl_eq_self (P := fun fields => (names fields).Nodup) ?_ ?_ h
  · intro fields rest distinct
    rw [names, List.map_append] at distinct
    exact (List.nodup_append.1 distinct).1
  · intro fields f distinct
    apply set_of_not_mem
    rw [names, List.map_append] at distinct
    exact fun mem => (List.nodup_append.1 distinct).2.2 _ mem _ List.mem_cons_self rfl

def Ascending (fields : Fields α) : Prop := fields.names.Pairwise (· < ·)

instance (fields : Fields α) : Decidable fields.Ascending :=
  inferInstanceAs (Decidable (fields.names.Pairwise (· < ·)))

theorem mem_insert {name : String} {a : α} {fields : Fields α} {f : String × α} (h : f ∈ fields.insert name a) :
    f = (name, a) ∨ f ∈ fields := by
  induction fields with
  | nil => exact .inl (List.mem_singleton.1 h)
  | cons g rest ih => grind [insert]

theorem Ascending.insert {fields : Fields α} (h : fields.Ascending) (name : String) (a : α) :
    (fields.insert name a).Ascending := by
  induction fields with
  | nil => exact List.pairwise_singleton _ _
  | cons f rest ih =>
    obtain ⟨n, b⟩ := f
    obtain ⟨first, later⟩ := List.pairwise_cons.1 h
    rw [Fields.insert]
    split
    · exact h
    · next other =>
      split
      · next lt =>
        refine List.pairwise_cons.2 ⟨fun m mem => ?_, h⟩
        rcases List.mem_cons.1 mem with rfl | mem
        · exact lt
        · exact String.lt_trans lt (first m mem)
      · next le =>
        have lt : n < name := by grind
        refine List.pairwise_cons.2 ⟨fun m mem => ?_, ih later⟩
        obtain ⟨g, inserted, rfl⟩ := List.mem_map.1 mem
        rcases mem_insert inserted with rfl | old
        · exact lt
        · exact first _ (List.mem_map_of_mem old)

theorem insert_of_above {name : String} (a : α) {fields : Fields α} (above : ∀ n ∈ fields.names, n < name) :
    fields.insert name a = fields ++ [(name, a)] := by
  induction fields with
  | nil => rfl
  | cons f rest ih =>
    have lt := above f.1 List.mem_cons_self
    have other : f.1 ≠ name := fun same => String.lt_irrefl _ (same ▸ lt)
    rw [insert, if_neg other, if_neg (String.lt_asymm lt), ih fun n mem => above n (List.mem_cons_of_mem _ mem)]
    rfl

theorem ascending_sorted (pairs : List (String × α)) : (sorted pairs).Ascending := by
  apply List.foldlRecOn (motive := Ascending)
  · exact .nil
  · exact fun fields h f _ => h.insert f.1 f.2

theorem mem_sorted {pairs : List (String × α)} {f : String × α} (h : f ∈ sorted pairs) : f ∈ pairs := by
  suffices kept : ∀ f ∈ sorted pairs, f ∈ pairs from kept f h
  apply List.foldlRecOn (motive := fun fields => ∀ f ∈ fields, f ∈ pairs)
  · exact fun _ => nofun
  · intro fields kept g mem f inserted
    rcases mem_insert inserted with rfl | old
    · exact mem
    · exact kept f old

theorem sorted_of_ascending {pairs : List (String × α)} (h : Ascending pairs) : sorted pairs = pairs := by
  apply foldl_eq_self (P := Ascending) ?_ ?_ h
  · intro fields rest ascending
    rw [Ascending, names, List.map_append] at ascending
    exact (List.pairwise_append.1 ascending).1
  · intro fields f ascending
    apply insert_of_above
    rw [Ascending, names, List.map_append] at ascending
    exact fun n mem => (List.pairwise_append.1 ascending).2.2 n mem _ List.mem_cons_self

theorem Ascending.nodup {fields : Fields α} (h : fields.Ascending) : fields.names.Nodup := by
  apply List.Pairwise.imp ?_ h
  rintro name _ lt rfl
  exact String.lt_irrefl name lt

end Fields

end DataBinding
