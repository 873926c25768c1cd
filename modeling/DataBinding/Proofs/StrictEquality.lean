import DataBinding.Value

namespace DataBinding

theorem Double.text_of_same {style : NumberStyle} {x y : Double} (zero : style.negativeZero = "0")
    (h : x.same y = true) : x.text style = y.text style := by
  cases x with
  | nan => cases h
  | signed s a =>
    cases y with
    | nan => cases h
    | signed t b =>
      simp only [same, Bool.and_eq_true, Bool.or_eq_true, decide_eq_true_eq] at h
      obtain ⟨rfl, rfl | ha⟩ := h
      · rfl
      · have finite : ¬ a.val = infinityRank := by
          rw [ha]
          decide
        simp only [text, if_neg finite, if_pos ha, zero, ite_self]

theorem Double.same_trans {x y z : Double} (h : x.same y = true) (h' : y.same z = true) :
    x.same z = true := by
  cases x with
  | nan => cases h
  | signed s a =>
    cases y with
    | nan => cases h
    | signed t b =>
      cases z with
      | nan => cases h'
      | signed u c =>
        simp only [same, Bool.and_eq_true, Bool.or_eq_true, decide_eq_true_eq] at h h' ⊢
        obtain ⟨rfl, hs⟩ := h
        obtain ⟨rfl, ht⟩ := h'
        refine ⟨rfl, ?_⟩
        rcases hs with rfl | ha
        · exact ht
        · exact .inr ha

namespace Value

theorem isNullish_of_strictEq {a b : Value} (h : a.strictEq b = true) : a.isNullish = b.isNullish := by
  cases a <;> cases b <;> first | rfl | cases h

mutual

theorem text_of_strictEq {a b : Value} (h : a.strictEq b = true) : a.text = b.text := by
  match a, b with
  | .undefined, .undefined | .null, .null => rfl
  | .bool _, .bool _ | .string _, .string _ =>
    simp only [strictEq, decide_eq_true_eq] at h
    rw [h]
  | .object _, .object _ => rfl
  | .number _, .number _ =>
    simp only [text]
    exact Double.text_of_same rfl h
  | .array xs, .array ys =>
    simp only [text]
    rw [itemTexts_of_strictEqItems h]

theorem itemTexts_of_strictEqItems {xs ys : List Value} (h : strictEqItems xs ys = true) :
    itemTexts xs = itemTexts ys := by
  match xs, ys with
  | [], [] => rfl
  | x :: xs, y :: ys =>
    simp only [strictEqItems, Bool.and_eq_true] at h
    rw [itemTexts, itemTexts, isNullish_of_strictEq h.1, text_of_strictEq h.1, itemTexts_of_strictEqItems h.2]

end

mutual

theorem strictEq_symm {a b : Value} (h : a.strictEq b = true) : b.strictEq a = true := by
  match a, b with
  | .undefined, .undefined | .null, .null => rfl
  | .bool _, .bool _ | .string _, .string _ | .object _, .object _ =>
    simp only [strictEq, decide_eq_true_eq] at h ⊢
    exact h.symm
  | .number _, .number _ =>
    rw [strictEq, Double.same_comm]
    exact h
  | .array xs, .array ys => exact strictEqItems_symm h

theorem strictEqItems_symm {xs ys : List Value} (h : strictEqItems xs ys = true) :
    strictEqItems ys xs = true := by
  match xs, ys with
  | [], [] => rfl
  | x :: xs, y :: ys =>
    simp only [strictEqItems, Bool.and_eq_true] at h ⊢
    exact ⟨strictEq_symm h.1, strictEqItems_symm h.2⟩

end

mutual

theorem strictEq_trans {a b c : Value} (h : a.strictEq b = true) (h' : b.strictEq c = true) :
    a.strictEq c = true := by
  match a, b, c with
  | .undefined, .undefined, .undefined | .null, .null, .null => rfl
  | .bool _, .bool _, .bool _ | .string _, .string _, .string _ | .object _, .object _, .object _ =>
    simp only [strictEq, decide_eq_true_eq] at h h' ⊢
    exact h.trans h'
  | .number _, .number _, .number _ => exact Double.same_trans h h'
  | .array xs, .array ys, .array zs => exact strictEqItems_trans h h'

theorem strictEqItems_trans {xs ys zs : List Value} (h : strictEqItems xs ys = true)
    (h' : strictEqItems ys zs = true) : strictEqItems xs zs = true := by
  match xs, ys, zs with
  | [], [], [] => rfl
  | x :: xs, y :: ys, z :: zs =>
    simp only [strictEqItems, Bool.and_eq_true] at h h' ⊢
    exact ⟨strictEq_trans h.1 h'.1, strictEqItems_trans h.2 h'.2⟩

end

mutual

def identical : Value → Value → Bool
  | .undefined, .undefined => true
  | .null, .null => true
  | .bool a, .bool b => a = b
  | .number x, .number y => x = y
  | .string s, .string t => s = t
  | .array xs, .array ys => identicalItems xs ys
  | .object s, .object t => s = t
  | _, _ => false

def identicalItems : List Value → List Value → Bool
  | [], [] => true
  | x :: xs, y :: ys => x.identical y && identicalItems xs ys
  | _, _ => false

end

mutual

theorem identical_iff {a b : Value} : a.identical b = true ↔ a = b := by
  cases a with
  | array xs =>
    cases b with
    | array ys => rw [identical, identicalItems_iff, array.injEq]
    | _ => simp [identical]
  | _ => cases b <;> simp [identical]

theorem identicalItems_iff {xs ys : List Value} : identicalItems xs ys = true ↔ xs = ys := by
  cases xs with
  | nil => cases ys <;> simp [identicalItems]
  | cons x xs =>
    cases ys with
    | nil => simp [identicalItems]
    | cons y ys => rw [identicalItems, Bool.and_eq_true, identical_iff, identicalItems_iff, List.cons.injEq]

end

instance : DecidableEq Value := fun _ _ => decidable_of_iff _ identical_iff

theorem strictEq_string {text : String} {v : Value} : (string text).strictEq v = true ↔ v = string text := by
  cases v <;> simp [strictEq, eq_comm]

end Value

end DataBinding
