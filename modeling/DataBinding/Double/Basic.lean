/-!
Doubles. Magnitudes are numbered upwards from zero, so neighbours have neighbouring ranks, and the last rank
is infinity. Every operation rounds an exact quotient to the nearest rank.
-/

namespace DataBinding

abbrev twoTo (n : Nat) : Nat := Nat.pow 2 n

abbrev tenTo (n : Nat) : Nat := Nat.pow 10 n

def infinityRank : Nat := 2047 * twoTo 52

inductive Double where
  | nan
  | signed (negative : Bool) (rank : Fin (infinityRank + 1))
  deriving DecidableEq

namespace Double

/-- The magnitude with a given rank, counted in the least positive magnitude `2 ^ -1074`. -/
def units (rank : Nat) : Nat :=
  if rank < twoTo 53 then rank else (twoTo 52 + rank % twoTo 52) * twoTo (rank / twoTo 52 - 1)

theorem units_of_lt {rank : Nat} (h : rank < twoTo 53) : units rank = rank := if_pos h

def divEven (n d : Nat) : Nat :=
  let q := n / d
  let r := n % d
  if 2 * r < d ∨ (2 * r = d ∧ q % 2 = 0) then q else q + 1

def nearestRank (n d : Nat) : Nat :=
  let shift := (n / d).log2 - 52
  shift * twoTo 52 + divEven n (d * twoTo shift)

def ofUnits (negative : Bool) (n d : Nat) : Double :=
  .signed negative ⟨min (nearestRank n d) infinityRank, by omega⟩

def ofInt (i : Int) : Double :=
  .ofUnits (i < 0) (i.natAbs * twoTo 1074) 1

def signedZero (negative : Bool) : Double := .signed negative ⟨0, by omega⟩

def zero : Double := signedZero false

def one : Double := ofInt 1

def infinity (negative : Bool) : Double := .signed negative ⟨infinityRank, by omega⟩

def same : Double → Double → Bool
  | .signed s a, .signed t b => a = b && (s = t || a.val = 0)
  | _, _ => false

def place? : Double → Option Int
  | .nan => none
  | .signed s r => some (if s then -(r.val : Int) else r.val)

def below (x y : Double) : Bool :=
  match x.place?, y.place? with
  | some a, some b => a < b
  | _, _ => false

def isFinite : Double → Bool
  | .nan => false
  | .signed _ r => r.val < infinityRank

/-- The whole number that a double is, if it is one below `2 ^ 53` in magnitude. -/
def safeInt? : Double → Option Int
  | .nan => none
  | .signed s r =>
    let n : Nat := units r.val / twoTo 1074
    if r.val < infinityRank ∧ units r.val % twoTo 1074 = 0 ∧ n < twoTo 53 then
      some (if s then -(n : Int) else n)
    else none

def signedUnits (negative : Bool) (rank : Nat) : Int :=
  if negative then -(units rank : Int) else units rank

/-- The sum, rounded once; opposite infinities have none, and an exact zero is negative only when both
operands are. -/
def add : Double → Double → Double
  | .signed s a, .signed t b =>
    if a.val = infinityRank then
      if b.val = infinityRank ∧ s ≠ t then .nan else .signed s a
    else if b.val = infinityRank then .signed t b
    else
      let sum := signedUnits s a.val + signedUnits t b.val
      if sum = 0 then signedZero (s && t) else .ofUnits (sum < 0) sum.natAbs 1
  | _, _ => .nan

theorem same_comm (x y : Double) : same x y = same y x := by
  cases x <;> cases y <;> simp only [same]
  rename_i s a t b
  by_cases h : a = b <;> simp [h, eq_comm]

theorem same_self_iff (x : Double) : same x x = true ↔ x ≠ .nan := by
  cases x <;> simp [same]

end Double

end DataBinding
