/-!
Tables: entries numbered in the order in which they were added, none of which is ever removed.
-/

namespace DataBinding

structure Table (α : Type) where
  entries : Array α := #[]

namespace Table

variable {α : Type}

def empty : Table α := {}

def size (t : Table α) : Nat := t.entries.size

/-- The entry with a number; a number that was never given out has the default entry. -/
def get [Inhabited α] (t : Table α) (i : Nat) : α := t.entries.getD i default

def add (t : Table α) (a : α) : Table α := ⟨t.entries.push a⟩

def modify (t : Table α) (i : Nat) (f : α → α) : Table α := ⟨t.entries.modify i f⟩

@[simp] theorem size_add (t : Table α) (a : α) : (t.add a).size = t.size + 1 := by simp [size, add]

@[simp] theorem size_modify (t : Table α) (i : Nat) (f : α → α) : (t.modify i f).size = t.size := by
  simp [size, modify]

@[simp] theorem get_add [Inhabited α] (t : Table α) (a : α) (i : Nat) :
    (t.add a).get i = if i = t.size then a else t.get i := by
  simp only [get, add, size, Array.getD_eq_getD_getElem?, Array.getElem?_push]
  split <;> simp_all

@[simp] theorem get_modify [Inhabited α] (t : Table α) (i j : Nat) (f : α → α) :
    (t.modify i f).get j = if j = i ∧ i < t.size then f (t.get j) else t.get j := by
  simp only [get, modify, size, Array.getD_eq_getD_getElem?, Array.getElem?_modify]
  by_cases hj : i = j
  · subst hj
    by_cases hi : i < t.entries.size <;> simp [hi]
  · simp [hj, Ne.symm hj]

theorem get_of_size_le [Inhabited α] (t : Table α) {i : Nat} (h : t.size ≤ i) : t.get i = default := by
  simp only [size] at h
  simp [get, Array.getD_eq_getD_getElem?, Array.getElem?_eq_none h]

theorem modify_of_size_le (t : Table α) {i : Nat} (f : α → α) (h : t.size ≤ i) : t.modify i f = t := by
  simp only [size] at h
  simp only [modify]
  congr 1
  apply Array.ext_getElem?
  intro j
  rw [Array.getElem?_modify]
  by_cases hj : i = j
  · subst hj; simp [Array.getElem?_eq_none h]
  · simp [hj]

def total (f : α → Nat) (as : List α) : Nat := as.foldr (fun a n => f a + n) 0

@[simp] theorem total_cons (f : α → Nat) (a : α) (as : List α) : total f (a :: as) = f a + total f as := rfl

theorem total_concat (f : α → Nat) (as : List α) (a : α) : total f (as ++ [a]) = total f as + f a := by
  induction as with
  | nil => exact Nat.add_comm _ _
  | cons b as ih => rw [List.cons_append, total_cons, total_cons, ih, Nat.add_assoc]

theorem total_modify (f : α → Nat) (b : α) (as : List α) (i : Nat) (h : i < as.length) :
    total f (as.modify i fun _ => b) + f as[i] = total f as + f b := by
  induction as generalizing i with
  | nil => simp at h
  | cons a as ih =>
    cases i with
    | zero =>
      simp only [List.modify_zero_cons, total_cons, List.getElem_cons_zero]
      omega
    | succ i =>
      have step := ih i (Nat.lt_of_succ_lt_succ h)
      simp only [List.modify_succ_cons, total_cons, List.getElem_cons_succ]
      omega

theorem total_entries_modify [Inhabited α] (t : Table α) (f : α → Nat) (i : Nat) (b : α) (h : i < t.size) :
    total f (t.modify i fun _ => b).entries.toList + f (t.get i) = total f t.entries.toList + f b := by
  have entry : t.get i = t.entries.toList[i] := by
    simp only [size] at h
    simp [get, Array.getD_eq_getD_getElem?, h]
  rw [entry, modify, Array.toList_modify]
  exact total_modify f b _ i h

theorem modify_of_fixed [Inhabited α] {t : Table α} {i : Nat} {f : α → α} (h : f (t.get i) = t.get i) :
    t.modify i f = t := by
  simp only [modify]
  congr 1
  apply Array.ext_getElem?
  intro j
  rw [Array.getElem?_modify]
  split
  · next hj =>
    subst hj
    by_cases hi : i < t.entries.size
    · simp only [get, Array.getD_eq_getD_getElem?, hi, getElem?_pos, Option.getD_some] at h
      simp [hi, h]
    · simp [hi]
  · rfl

@[simp] theorem modify_get [Inhabited α] (t : Table α) (i : Nat) : t.modify i (fun _ => t.get i) = t :=
  modify_of_fixed rfl

@[simp] theorem modify_modify (t : Table α) (i : Nat) (f f' : α → α) :
    (t.modify i f).modify i f' = t.modify i (fun a => f' (f a)) := by
  simp only [modify]
  congr 1
  apply Array.ext_getElem?
  intro j
  simp only [Array.getElem?_modify]
  split <;> simp [Option.map_map, Function.comp_def]

end Table

end DataBinding
