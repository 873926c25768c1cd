import Mathlib.Algebra.Order.Ring.Rat
import Mathlib.Data.Rat.Lemmas
import DataBinding.Json.Basic

namespace DataBinding

namespace Double

variable {x : Double} {i : Int} {n b : Nat}

def value : Double → ℚ
  | .nan => 0
  | .signed negative rank => signedUnits negative rank.val / (twoTo 1074 : Nat)

def Safe (x : Double) : Prop := x.value.den = 1 ∧ x.value.num.natAbs < twoTo 53

instance (x : Double) : Decidable x.Safe := inferInstanceAs (Decidable (_ ∧ _))

theorem twoTo_pos (n : Nat) : 0 < twoTo n := Nat.pow_pos Nat.two_pos

theorem value_eq_iff (negative : Bool) (rank : Fin (infinityRank + 1)) (i : Int) :
    (signed negative rank).value = i ↔ signedUnits negative rank.val = i * twoTo 1074 := by
  rw [value]
  have pos := twoTo_pos 1074
  generalize twoTo 1074 = d at pos ⊢
  have pos : (d : ℚ) ≠ 0 := Nat.cast_ne_zero.2 pos.ne'
  rw [div_eq_iff pos]
  norm_cast

theorem safe_iff : x.Safe ↔ ∃ i : Int, x.value = i ∧ i.natAbs < twoTo 53 := by
  constructor
  · rintro ⟨whole, small⟩
    exact ⟨x.value.num, (Rat.coe_int_num_of_den_eq_one whole).symm, small⟩
  · rintro ⟨i, is, small⟩
    rw [Safe, is]
    exact ⟨Rat.den_intCast i, by rwa [Rat.num_intCast]⟩

theorem safeInt?_eq_some_iff (finite : x.isFinite = true) :
    x.safeInt? = some i ↔ x.value = i ∧ i.natAbs < twoTo 53 := by
  cases x with
  | nan => cases finite
  | signed negative rank =>
    simp only [isFinite, decide_eq_true_eq] at finite
    rw [value_eq_iff, safeInt?, signedUnits]
    have pos := twoTo_pos 1074
    generalize units rank.val = u
    generalize twoTo 1074 = d at pos ⊢
    simp only [finite, true_and, Option.ite_none_right_eq_some, Option.some.injEq]
    constructor
    · rintro ⟨⟨whole, small⟩, rfl⟩
      have exact : u = u / d * d := (Nat.div_mul_cancel (Nat.dvd_of_mod_eq_zero whole)).symm
      generalize u / d = n at small exact
      subst exact
      cases negative <;> simp [small]
    · rintro ⟨is, small⟩
      have exact : u = i.natAbs * d := by
        have size := congrArg Int.natAbs is
        rw [Int.natAbs_mul, Int.natAbs_natCast] at size
        rw [← size]
        cases negative <;> simp
      have sign : (if negative = true then -(i.natAbs : Int) else i.natAbs) = i := by
        apply Int.eq_of_mul_eq_mul_right (Int.natCast_ne_zero.2 pos.ne')
        rw [← is, exact]
        cases negative <;> simp
      subst exact
      rw [Nat.mul_mod_left, Nat.mul_div_cancel _ pos]
      exact ⟨⟨rfl, small⟩, sign⟩

theorem safeInt?_eq_none_iff (finite : x.isFinite = true) : x.safeInt? = none ↔ ¬ x.Safe := by
  rw [safe_iff, Option.eq_none_iff_forall_ne_some, not_exists]
  exact forall_congr' fun i => not_congr (safeInt?_eq_some_iff finite)

theorem divEven_mul (n : Nat) {d : Nat} (pos : 0 < d) : divEven (n * d) d = n := by
  simp [divEven, Nat.mul_div_cancel n pos, pos]

theorem divEven_le (n d : Nat) : divEven n d ≤ n / d + 1 := by
  rw [divEven]
  split <;> omega

theorem twoTo_add (m n : Nat) : twoTo (m + n) = twoTo m * twoTo n := Nat.pow_add 2 m n

theorem twoTo_succ (n : Nat) : twoTo (n + 1) = twoTo n * 2 := Nat.pow_succ 2 n

theorem twoTo_le {m n : Nat} (h : m ≤ n) : twoTo m ≤ twoTo n := Nat.pow_le_pow_right Nat.two_pos h

theorem log2_lt_of_lt (pos : 0 < b) (h : n < twoTo b) : n.log2 < b := by
  by_cases none : n = 0
  · rwa [none]
  · exact (Nat.log2_lt none).2 h

theorem units_of_lead {shift rest : Nat} (lead : 0 < shift) (small : rest < twoTo 52) :
    units (shift * twoTo 52 + (twoTo 52 + rest)) = (twoTo 52 + rest) * twoTo shift := by
  have rank : shift * twoTo 52 + (twoTo 52 + rest) = (shift + 1) * twoTo 52 + rest := by
    rw [Nat.succ_mul, Nat.add_assoc]
  have large : ¬ (shift + 1) * twoTo 52 + rest < twoTo 53 := by
    rw [twoTo_succ 52, Nat.mul_comm (twoTo 52)]
    apply Nat.not_lt_of_le
    exact Nat.le_add_right_of_le (Nat.mul_le_mul_right _ (Nat.succ_le_succ lead))
  have block : ((shift + 1) * twoTo 52 + rest) / twoTo 52 = shift + 1 := by
    rw [Nat.mul_comm, Nat.mul_add_div (twoTo_pos 52), Nat.div_eq_of_lt small, Nat.add_zero]
  rw [rank, units, if_neg large, Nat.mul_add_mod_of_lt small, block, Nat.add_sub_cancel]

theorem units_nearestRank (zeros : twoTo (n.log2 - 52) ∣ n) : units (nearestRank n 1) = n := by
  rw [nearestRank, Nat.div_one, Nat.one_mul]
  obtain ⟨q, factors⟩ := zeros
  rw [Nat.mul_comm] at factors
  have below : n < twoTo (n.log2 + 1) := Nat.lt_log2_self
  have exact {d : Nat} (factors : n = q * d) (pos : 0 < d) : divEven n d = q := by rw [factors, divEven_mul q pos]
  rw [exact factors (twoTo_pos _)]
  rcases Nat.lt_or_ge 52 n.log2 with lead | short
  · -- all digits but the first stand in the rank
    obtain ⟨shift, bits⟩ : ∃ shift, n.log2 = 52 + shift := ⟨n.log2 - 52, by omega⟩
    have above : twoTo n.log2 ≤ n := by
      apply Nat.log2_self_le
      rintro rfl
      simp at lead
    rw [bits, Nat.add_sub_cancel_left] at factors ⊢
    rw [bits, twoTo_add, factors] at above
    rw [bits, Nat.add_right_comm, twoTo_add, factors] at below
    have low : twoTo 52 ≤ q := Nat.le_of_mul_le_mul_right above (twoTo_pos shift)
    have high : q < twoTo 53 := Nat.lt_of_mul_lt_mul_right below
    obtain ⟨rest, rfl⟩ := Nat.exists_eq_add_of_le low
    rw [units_of_lead (by omega) _, ← factors]
    have double : twoTo 53 = twoTo 52 * 2 := twoTo_succ 52
    omega
  · have none : n.log2 - 52 = 0 := by omega
    have same : n = q := by rwa [none, Nat.mul_one] at factors
    rw [none, Nat.zero_mul, Nat.zero_add, ← same, units_of_lt]
    exact Nat.lt_of_lt_of_le below (twoTo_le (by omega))

theorem nearestRank_le (small : n < twoTo (b + 53)) : nearestRank n 1 ≤ (b + 2) * twoTo 52 := by
  rw [nearestRank, Nat.div_one, Nat.one_mul]
  have bits := log2_lt_of_lt (Nat.succ_pos _) small
  have shift : n.log2 - 52 ≤ b := by omega
  have quotient : n / twoTo (n.log2 - 52) < twoTo 53 := by
    rw [Nat.div_lt_iff_lt_mul (twoTo_pos _), ← twoTo_add]
    exact Nat.lt_of_lt_of_le Nat.lt_log2_self (twoTo_le (by omega))
  calc
    _ ≤ b * twoTo 52 + twoTo 53 :=
      Nat.add_le_add (Nat.mul_le_mul_right _ shift) (Nat.le_trans (divEven_le _ _) quotient)
    _ = (b + 2) * twoTo 52 := by rw [twoTo_succ 52, Nat.mul_comm (twoTo 52), Nat.add_mul]

theorem nearestRank_lt (small : n < twoTo 65) : nearestRank (n * twoTo 1074) 1 < infinityRank := by
  have units : n * twoTo 1074 < twoTo (1086 + 53) := by
    rw [show 1086 + 53 = 65 + 1074 from rfl, twoTo_add]
    exact Nat.mul_lt_mul_of_pos_right small (twoTo_pos _)
  exact Nat.lt_of_le_of_lt (nearestRank_le units) (by decide)

theorem ofInt_eq (small : i.natAbs < twoTo 65) : ∃ rank : Fin (infinityRank + 1),
    rank.val = nearestRank (i.natAbs * twoTo 1074) 1 ∧ rank.val < infinityRank ∧ ofInt i = .signed (i < 0) rank := by
  have bound := nearestRank_lt small
  refine ⟨⟨_, Nat.lt_succ_of_lt bound⟩, rfl, bound, ?_⟩
  rw [ofInt, ofUnits]
  congr
  exact Nat.min_eq_left (Nat.le_of_lt bound)

theorem isFinite_ofInt (small : i.natAbs < twoTo 65) : (ofInt i).isFinite = true := by
  obtain ⟨rank, -, bound, is⟩ := ofInt_eq small
  rw [is, isFinite, decide_eq_true_eq]
  exact bound

theorem value_ofInt (small : i.natAbs < twoTo 53) : (ofInt i).value = i := by
  obtain ⟨rank, nearest, -, is⟩ := ofInt_eq (Nat.lt_of_lt_of_le small (twoTo_le (by decide)))
  have zeros : twoTo ((i.natAbs * twoTo 1074).log2 - 52) ∣ i.natAbs * twoTo 1074 := by
    apply Nat.dvd_mul_left_of_dvd
    apply Nat.pow_dvd_pow
    have units : i.natAbs * twoTo 1074 < twoTo (53 + 1074) := by
      rw [twoTo_add]
      exact Nat.mul_lt_mul_of_pos_right small (twoTo_pos _)
    have bits := log2_lt_of_lt (by decide) units
    omega
  rw [is, value_eq_iff, signedUnits, nearest, units_nearestRank zeros]
  generalize twoTo 1074 = d
  by_cases negative : i < 0
  · have size : (i.natAbs : Int) = -i := by omega
    rw [if_pos (decide_eq_true negative), Int.natCast_mul, size, Int.neg_mul, Int.neg_neg]
  · have size : (i.natAbs : Int) = i := by omega
    rw [if_neg (by simpa using negative), Int.natCast_mul, size]

end Double

namespace Json

def canonicalNumber (x : Double) : Json := if x.Safe then .integer x.value.num else .real x

theorem ofDouble_eq {x : Double} (finite : x.isFinite = true) : ofDouble x = canonicalNumber x := by
  rw [ofDouble, canonicalNumber]
  by_cases safe : x.Safe
  · obtain ⟨i, is, small⟩ := Double.safe_iff.1 safe
    rw [(Double.safeInt?_eq_some_iff finite).2 ⟨is, small⟩, if_pos safe, is, Rat.num_intCast]
  · rw [(Double.safeInt?_eq_none_iff finite).2 safe, if_neg safe]
    exact if_pos finite

end Json

end DataBinding
