import Reckoner.Gamma
import Reckoner.Number.Basic

/-! Gamma and factorial of numbers. Positive integers have exact factorials, rounded once; every
other argument goes through the gamma function. -/
namespace Reckoner.Number

def reflected (z : Number) : Number := ⟨1.0 - z.re, 0.0 - z.im⟩

def gammaWithin? : (reflections : Nat) → Number → Option Number
  | 0, z => if z.re < 0.5 then none else some (z.map Gamma.lanczos)
  | reflections + 1, z =>
    if z.re < 0.5 then
      (gammaWithin? reflections z.reflected).map fun w => zipWith Gamma.reflection z w
    else some (z.map Gamma.lanczos)

/-- The gamma function. The image of a point left of `Re z = 1/2` is not left of it, and so one
reflection is enough. -/
def gamma (z : Number) : Number :=
  (gammaWithin? 1 z).getD Cartesian.nan.number

def natFactorial : Nat → Nat
  | 0 => 1
  | n + 1 => (n + 1) * natFactorial n

def largestFactorial : Nat := 170

def integerFactorial (n : Nat) : Float :=
  if largestFactorial < n then Double.infinity else Float.ofNat (natFactorial n)

def factorial (z : Number) : Number :=
  if z.isReal && 0.0 < z.re && Double.isInteger z.re then
    real (integerFactorial (Double.exact z.re).num.toNat)
  else if z.isZero then real 1.0
  else gamma ⟨z.re + 1.0, z.im + 0.0⟩

end Reckoner.Number
