import DataBinding.Double.Basic

namespace DataBinding

/-- The number `digits * 10 ^ exponent` with a sign. -/
structure Decimal where
  negative : Bool
  digits : Nat
  exponent : Int
  deriving DecidableEq

namespace Decimal

def ofDigits (n : Nat) : List Char → Nat
  | [] => n
  | c :: cs => ofDigits (10 * n + (c.toNat - '0'.toNat)) cs

/-- The nearest double; exponents far outside the range of doubles are decided without computing a power. -/
def toDouble (x : Decimal) : Double :=
  if x.digits = 0 then .signedZero x.negative
  else if 310 ≤ x.exponent then .infinity x.negative
  else if 0 ≤ x.exponent then .ofUnits x.negative (x.digits * tenTo x.exponent.toNat * twoTo 1074) 1
  else if x.digits.log2 + 1 ≤ 3 * ((-x.exponent).toNat - 330) then .signedZero x.negative
  else .ofUnits x.negative (x.digits * twoTo 1074) (tenTo (-x.exponent).toNat)

def exponent? (cs : List Char) : Option Int :=
  let (negative, digits) := match cs with
    | '-' :: r => (true, r)
    | '+' :: r => (false, r)
    | r => (false, r)
  if digits.isEmpty || !digits.all Char.isDigit then none
  else some (if negative then -(ofDigits 0 digits : Int) else ofDigits 0 digits)

def unsigned? (negative : Bool) (cs : List Char) : Option Decimal :=
  let whole := cs.takeWhile Char.isDigit
  let afterWhole := cs.dropWhile Char.isDigit
  let (fraction, rest) := match afterWhole with
    | '.' :: r => (r.takeWhile Char.isDigit, r.dropWhile Char.isDigit)
    | r => ([], r)
  if whole.isEmpty && fraction.isEmpty then none
  else
    let digits := ofDigits 0 (whole ++ fraction)
    match rest with
    | [] => some ⟨negative, digits, -(fraction.length : Int)⟩
    | e :: r =>
      if e = 'e' || e = 'E' then
        (exponent? r).map fun x => ⟨negative, digits, x - fraction.length⟩
      else none

end Decimal

namespace Double

def splitSign : List Char → Bool × List Char
  | '-' :: r => (true, r)
  | '+' :: r => (false, r)
  | r => (false, r)

def read? (text : String) : Option Double :=
  let (negative, body) := splitSign text.toList
  match Decimal.unsigned? negative body with
  | some d => some d.toDouble
  | none =>
    let name := String.ofList (body.map Char.toLower)
    if name = "nan" then some .nan
    else if name = "inf" || name = "infinity" then some (.infinity negative)
    else none

end Double

end DataBinding
