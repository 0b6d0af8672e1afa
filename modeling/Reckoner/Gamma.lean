import Reckoner.Cartesian

/-! The gamma function by Lanczos' series, with the reflection formula left of the line
`Re z = 1/2`. -/
namespace Reckoner.Gamma

def pi : Float := 3.141592653589793

def seriesStart : Float := 0.99999999999980993

def coefficients : List Float :=
  [676.5203681218851, -1259.1392167224028, 771.32342877765313, -176.61502916214059,
    12.507343278686905, -0.13857109526572012, 9.9843695780195716e-6, 1.5056327351493116e-7]

def real (x : Float) : Cartesian := Cartesian.real (Scalar.of x)

def series (w : Cartesian) : (k : Float) → List Float → (sum : Cartesian) → Cartesian
  | _, [], sum => sum
  | k, c :: rest, sum => series w (k + 1.0) rest (sum + real c / (w + real k + real 1.0))

def lanczos (z : Cartesian) : Cartesian :=
  let w := z - real 1.0
  let x := series w 0.0 coefficients (real seriesStart)
  let t := w + real 8.0 - real 0.5
  real (Float.sqrt (2.0 * pi)) * t.power (w + real 0.5) * (-t).exp * x

def reflection (z image : Cartesian) : Cartesian :=
  real pi / ((real pi * z).sin * image)

end Reckoner.Gamma
