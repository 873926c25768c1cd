import DataBinding.Proofs.CoercedInput
import DataBinding.Proofs.RepeatedUpdates

namespace DataBinding.Value

variable {a b c d : Value} {same : Bool}

inductive Verdict where
  | decided (same : Bool)
  | instead (a b : Value)

/-- A round of the comparison after conversion. Of the rules that fit two values the first one is followed. -/
def round : Value → Value → Verdict
  | .undefined, .undefined | .undefined, .null | .null, .undefined | .null, .null => .decided true
  | .undefined, _ | .null, _ | _, .undefined | _, .null => .decided false
  | .number x, .string t => .decided (x.same (numberOfText t))
  | .string s, .number y => .decided ((numberOfText s).same y)
  | .bool p, b => .instead (widened (.bool p)) b
  | a, .bool q => .instead a (widened (.bool q))
  | .object s, .object t => .decided (s = t)
  | .array xs, .array ys => .decided ((array xs).strictEq (.array ys))
  | .array _, .object _ | .object _, .array _ => .decided false
  | .array xs, b => .instead (.string (array xs).text) b
  | .object s, b => .instead (.string (object s).text) b
  | a, .array ys => .instead a (.string (array ys).text)
  | a, .object t => .instead a (.string (object t).text)
  | a, b => .decided (a.strictEq b)

inductive Compares : Value → Value → Bool → Prop
  | decided {a b : Value} {same : Bool} (last : round a b = .decided same) : Compares a b same
  | instead {a b c d : Value} {same : Bool} (next : round a b = .instead c d) (rest : Compares c d same) :
    Compares a b same

def replacements : Value → Nat
  | .bool _ | .array _ | .object _ => 1
  | _ => 0

theorem looseEq_of_decided (last : round a b = .decided same) : a.looseEq b = same := by
  cases a <;> cases b <;> simp only [round, Verdict.decided.injEq, reduceCtorEq] at last <;> rw [← last]
  all_goals simp [looseEq, isNullish, widened, flattened, sameContent, strictEq]

theorem looseEq_of_instead (next : round a b = .instead c d) : a.looseEq b = c.looseEq d := by
  cases a <;> cases b <;> cases next <;> rfl

theorem replacements_of_instead (next : round a b = .instead c d) :
    c.replacements + d.replacements < a.replacements + b.replacements := by
  cases a <;> cases b <;> cases next <;> simp [replacements, widened]

theorem compares_iff : Compares a b same ↔ a.looseEq b = same := by
  constructor
  · intro compares
    induction compares with
    | decided last => exact looseEq_of_decided last
    | instead next _ ih => exact (looseEq_of_instead next).trans ih
  · rintro rfl
    generalize left : a.replacements + b.replacements = n
    induction n using Nat.strongRecOn generalizing a b with
    | ind n ih =>
      cases next : round a b with
      | decided same =>
        rw [looseEq_of_decided next]
        exact .decided next
      | instead c d =>
        rw [looseEq_of_instead next]
        exact .instead next (ih _ (left ▸ replacements_of_instead next) rfl)

theorem strictEq_comm (a b : Value) : a.strictEq b = b.strictEq a := Bool.eq_iff_iff.2 ⟨strictEq_symm, strictEq_symm⟩

theorem strictEqItems_comm (xs ys : List Value) : strictEqItems xs ys = strictEqItems ys xs :=
  strictEq_comm (.array xs) (.array ys)

theorem sameContent_comm (a b : Value) : sameContent a b = sameContent b a := by
  cases a <;> cases b <;> simp [sameContent, Double.same_comm, eq_comm]

theorem looseEq_comm (a b : Value) : a.looseEq b = b.looseEq a := by
  rw [looseEq, looseEq, Bool.or_comm, Bool.and_comm]
  split
  · rfl
  · generalize a.widened = v
    generalize b.widened = w
    -- two arrays, two objects, one of each, or what meets as numbers and texts
    cases v <;> cases w <;> first | exact sameContent_comm _ _ | exact strictEqItems_comm _ _ | simp [eq_comm]

theorem sameContent_number {x y : Double} (h : x.same y = true) (c : Value) :
    sameContent (.number x) c = sameContent (.number y) c := by
  cases c <;> simp only [sameContent] <;> rw [Double.same_comm x, Double.same_comm y, Double.same_congr h]

theorem strictEq_cases (h : a.strictEq b = true) : a = b ∨ (∃ x y, a = .number x ∧ b = .number y ∧ x.same y = true) ∨
    ∃ xs ys, a = .array xs ∧ b = .array ys ∧ strictEqItems xs ys = true := by
  cases a <;> cases b <;> simp_all [strictEq]

theorem looseEq_congr (h : a.strictEq b = true) (c : Value) : a.looseEq c = b.looseEq c := by
  rcases strictEq_cases h with rfl | ⟨x, y, rfl, rfl, same⟩ | ⟨xs, ys, rfl, rfl, same⟩
  · rfl
  · rw [looseEq_of_widened rfl, looseEq_of_widened rfl, sameContent_number same]
  · have text : (array xs).text = (array ys).text := text_of_strictEq h
    cases c with
    | array zs => exact Bool.eq_iff_iff.2 ⟨strictEqItems_trans (strictEqItems_symm same), strictEqItems_trans same⟩
    | _ => simp [looseEq, isNullish, widened, flattened, text]

theorem looseEq_of_strictEq (h : a.strictEq b = true) : a.looseEq b = true := by
  have self : b.strictEq b = true := strictEq_trans (strictEq_symm h) h
  rw [looseEq_congr h, looseEq_self, ← strictEq_self, self]

inductive Inside (x : Value) : Value → Prop
  | self : Inside x x
  | item {v : Value} {items : List Value} (mem : v ∈ items) (inside : Inside x v) : Inside x (.array items)

mutual

theorem hasNaN_iff (v : Value) : v.hasNaN = true ↔ Inside (.number .nan) v := by
  match v with
  | .undefined | .null | .bool _ | .string _ | .object _ => exact ⟨nofun, nofun⟩
  | .number x =>
    rw [hasNaN, decide_eq_true_eq]
    constructor
    · rintro rfl
      exact .self
    · rintro ⟨⟩
      rfl
  | .array items =>
    rw [hasNaN, anyNaN_iff items]
    constructor
    · rintro ⟨v, mem, inside⟩
      exact .item mem inside
    · rintro (_ | ⟨mem, inside⟩)
      exact ⟨_, mem, inside⟩

theorem anyNaN_iff (vs : List Value) : anyNaN vs = true ↔ ∃ v ∈ vs, Inside (.number .nan) v := by
  match vs with
  | [] => simp [anyNaN]
  | v :: vs =>
    rw [anyNaN, Bool.or_eq_true, hasNaN_iff v, anyNaN_iff vs]
    simp only [List.mem_cons, exists_eq_or_imp]

end

/-- Strict equality is symmetric and transitive, equality after conversion is symmetric, and comparison by rounds ends
with what this says. What is equal strictly is equal after conversion. A value equals itself, in either way, exactly if
there is no NaN in it. -/
theorem equality_laws (a b c : Value) :
    a.strictEq b = b.strictEq a ∧ (a.strictEq b = true → b.strictEq c = true → a.strictEq c = true) ∧
      a.looseEq b = b.looseEq a ∧ (∀ same, Compares a b same ↔ a.looseEq b = same) ∧
      (a.strictEq b = true → a.looseEq b = true) ∧
      (a.strictEq a = true ↔ ¬ Inside (.number .nan) a) ∧ (a.looseEq a = true ↔ ¬ Inside (.number .nan) a) := by
  refine ⟨strictEq_comm a b, strictEq_trans, looseEq_comm a b, fun _ => compares_iff, looseEq_of_strictEq, ?_, ?_⟩
  · rw [strictEq_self, ← hasNaN_iff, Bool.not_eq_true', Bool.not_eq_true]
  · rw [looseEq_self, ← hasNaN_iff, Bool.not_eq_true', Bool.not_eq_true]

end DataBinding.Value
