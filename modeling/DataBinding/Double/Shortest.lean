import DataBinding.Double.Decimal

/-!
The shortest decimal that reads back as a given double. Halfway points between doubles are whole multiples of
`10 ^ -1075`, so every comparison is one of natural numbers.
-/

namespace DataBinding.Double

/-- A count of halves of the least magnitude, in multiples of `10 ^ -1075`. -/
def fine (halves : Nat) : Nat := halves * Nat.pow 5 1075

/-- Whether a multiple of `10 ^ -1075` rounds to the magnitude with the given rank; the ends of the interval
belong to even ranks. -/
def roundsTo (rank x : Nat) : Bool :=
  let low := fine (units (rank - 1) + units rank)
  let high := fine (units rank + units (rank + 1))
  if rank % 2 = 0 then low ≤ x ∧ x ≤ high else low < x ∧ x < high

/-- On the grid of multiples of `10 ^ k`, the neighbour of the magnitude that rounds to it, the nearer of two
and the upper of two equally near. -/
def onGrid? (rank k : Nat) : Option Nat :=
  let value := fine (2 * units rank)
  let lower := value / tenTo k
  let upper := lower + 1
  let fitsLower := roundsTo rank (lower * tenTo k)
  let fitsUpper := roundsTo rank (upper * tenTo k)
  if fitsLower && (!fitsUpper || value - lower * tenTo k < upper * tenTo k - value) then some lower
  else if fitsUpper then some upper
  else none

def search (rank : Nat) : Nat → Nat × Nat
  | 0 => (fine (2 * units rank), 0)
  | k + 1 => match onGrid? rank (k + 1) with
    | some digits => (digits, k + 1)
    | none => search rank k

def coarsest (rank : Nat) : Nat :=
  (((units rank).log2 : Int) * 30103 / 100000 + 755).toNat

def shortest (negative : Bool) (rank : Nat) : Decimal :=
  let (digits, k) := search rank (coarsest rank)
  ⟨negative, digits, (k : Int) - 1075⟩

end DataBinding.Double

namespace DataBinding

def Decimal.positional (x : Decimal) : String :=
  let digits := Nat.toDigits 10 x.digits
  let body :=
    if 0 ≤ x.exponent then digits ++ List.replicate x.exponent.toNat '0'
    else
      let places := (-x.exponent).toNat
      let padded := List.replicate (places + 1 - digits.length) '0' ++ digits
      padded.take (padded.length - places) ++ '.' :: padded.drop (padded.length - places)
  String.ofList (if x.negative then '-' :: body else body)

structure NumberStyle where
  infinity : String
  negativeZero : String

def Double.text (style : NumberStyle) : Double → String
  | .nan => "NaN"
  | .signed negative rank =>
    if rank.val = infinityRank then (if negative then "-" else "") ++ style.infinity
    else if rank.val = 0 then (if negative then style.negativeZero else "0")
    else (shortest negative rank.val).positional

end DataBinding
