import Reckoner.Double.Basic

/-! Decimals, the doubles they stand for, and their positional text. -/
namespace Reckoner

/-- The decimal `± digits · 10 ^ exponent`. -/
structure Decimal where
  negative : Bool
  digits : Nat
  exponent : Int
deriving DecidableEq, Repr

namespace Decimal

def toFloat (d : Decimal) : Float :=
  let magnitude := match d.exponent with
    | .ofNat n => Float.ofScientific d.digits false n
    | .negSucc n => Float.ofScientific d.digits true (n + 1)
  if d.negative then -magnitude else magnitude

/-- Digits with the point in its place, padded with zeros where the digits do not reach it. -/
def layout (d : Decimal) : List Char :=
  let digits := Nat.toDigits 10 d.digits
  let magnitude := match d.exponent with
    | .ofNat n => digits ++ List.replicate n '0'
    | .negSucc n =>
      let whole := digits.length - (n + 1)
      if whole = 0 then
        '0' :: '.' :: (List.replicate (n + 1 - digits.length) '0' ++ digits)
      else digits.take whole ++ '.' :: digits.drop whole
  if d.negative then '-' :: magnitude else magnitude

end Decimal

end Reckoner
