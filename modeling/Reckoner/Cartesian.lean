import Reckoner.Scalar

/-! Complex arithmetic on Cartesian parts. Sums and products follow the textbook formulas and
repair nothing; quotients scale by the larger part of the divisor and recover the infinities and
zeros that the scaling loses to NaN; powers go through polar form. -/
namespace Reckoner

structure Cartesian where
  re : Scalar
  im : Scalar
deriving DecidableEq

namespace Cartesian

def real (x : Scalar) : Cartesian := ⟨x, Scalar.zero⟩

def nan : Cartesian := ⟨Scalar.nan, Scalar.nan⟩

instance : Add Cartesian := ⟨fun z w => ⟨z.re + w.re, z.im + w.im⟩⟩

instance : Sub Cartesian := ⟨fun z w => ⟨z.re - w.re, z.im - w.im⟩⟩

instance : Mul Cartesian := ⟨fun z w => ⟨z.re * w.re - z.im * w.im, z.re * w.im + z.im * w.re⟩⟩

instance : Neg Cartesian := ⟨fun z => ⟨-z.re, -z.im⟩⟩

def scaledQuotient (z w : Cartesian) : Cartesian :=
  if w.re.abs.less w.im.abs then
    let r := w.re / w.im
    let s := w.im + r * w.re
    ⟨(z.re * r + z.im) / s, (z.im * r - z.re) / s⟩
  else
    let r := w.im / w.re
    let s := w.re + r * w.im
    ⟨(z.re + z.im * r) / s, (z.im - z.re * r) / s⟩

def direction (x : Scalar) : Scalar :=
  (if x.isInf then Scalar.one else Scalar.zero).copySign x

def isFinite (z : Cartesian) : Bool := z.re.isFinite && z.im.isFinite

def isInf (z : Cartesian) : Bool := z.re.isInf || z.im.isInf

def isZero (z : Cartesian) : Bool := z.re.isZero && z.im.isZero

def isNaN (z : Cartesian) : Bool := z.re.isNaN && z.im.isNaN

/-- What the quotient is where scaling gave two NaNs: infinite over a zero divisor or under an
infinite dividend, zero over an infinite divisor, and otherwise NaN. -/
def limitQuotient (z w : Cartesian) : Cartesian :=
  if w.isZero && !z.isNaN then
    let i := Scalar.infinity.copySign w.re
    ⟨i * z.re, i * z.im⟩
  else if z.isInf && w.isFinite then
    let a := direction z.re
    let b := direction z.im
    ⟨Scalar.infinity * (a * w.re + b * w.im), Scalar.infinity * (b * w.re - a * w.im)⟩
  else if z.isFinite && w.isInf then
    let c := direction w.re
    let d := direction w.im
    ⟨Scalar.zero * (z.re * c + z.im * d), Scalar.zero * (z.im * c - z.re * d)⟩
  else nan

instance : Div Cartesian :=
  ⟨fun z w =>
    let quotient := scaledQuotient z w
    if quotient.isNaN then limitQuotient z w else quotient⟩

def remainder (z w : Cartesian) : Cartesian :=
  let q := z / w
  z - w * ⟨q.re.truncate, q.im.truncate⟩

def magnitudes (z : Cartesian) : Scalar × Scalar :=
  if z.re.abs.less z.im.abs then (z.im.abs, z.re.abs) else (z.re.abs, z.im.abs)

/-- The distance from zero, computed from the ratio of the parts so that no square overflows.
A NaN in either part is kept, also beside an infinity. -/
def modulus (z : Cartesian) : Scalar :=
  if z.re.isNaN || z.im.isNaN then Scalar.nan
  else
    let (large, small) := z.magnitudes
    if small.isZero || large.isInf then large
    else
      let r := small / large
      large * (Scalar.one + r * r).sqrt

def excess (z : Cartesian) : Rat :=
  let x := Double.exact z.re.read
  let y := Double.exact z.im.read
  x * x + y * y - 1

def nearUnitCircle (z : Cartesian) : Bool :=
  z.isFinite && decide (2 * z.excess.num.natAbs < z.excess.den)

/-- The logarithm of the distance from zero. Near the unit circle it comes from the exact excess,
so that it keeps its digits where the distance rounds to one. Elsewhere it comes from the larger
part and the ratio of the parts, and is finite also where the distance overflows. -/
def logModulus (z : Cartesian) : Scalar :=
  if z.re.isNaN || z.im.isNaN then Scalar.nan
  else if z.nearUnitCircle then (Scalar.of (Double.ofRat z.excess)).logSucc / Scalar.two
  else
    let (large, small) := z.magnitudes
    if small.isZero || large.isInf then large.log
    else
      let r := small / large
      large.log + (r * r).logSucc / Scalar.two

def argument (z : Cartesian) : Scalar := Scalar.angle z.im z.re

def log (z : Cartesian) : Cartesian := ⟨z.logModulus, z.argument⟩

def logBase (base : Scalar) (z : Cartesian) : Cartesian := z.log / real base.log

def exp (z : Cartesian) : Cartesian :=
  if z.im.isZero then real z.re.exp
  else ⟨z.re.exp * z.im.cos, z.re.exp * z.im.sin⟩

def polarPower (z w : Cartesian) : Cartesian :=
  let r := z.modulus
  let t := z.argument
  let scale := r.pow w.re * (-w.im * t).exp
  let angle := w.re * t + w.im * r.log
  ⟨scale * angle.cos, scale * angle.sin⟩

def isOne (z : Cartesian) : Bool := z.re.val == 1.0 && z.im.isZero

def isPositiveInfinity (z : Cartesian) : Bool := z.re.val == Double.infinity && z.im.isZero

/-- `z ^ w`. Everything to the power zero is one, and so is one to any power. Zero to a positive
real power is zero, and the positive infinity goes to infinity or to zero by the sign of a real
power. All else goes through polar form, and so a power of a negative real is real only up to
rounding. -/
def power (z w : Cartesian) : Cartesian :=
  if z.isOne || w.isZero then real Scalar.one
  else if z.isZero && w.im.isZero && Scalar.zero.less w.re then real Scalar.zero
  else if z.isPositiveInfinity && w.im.isZero && Scalar.zero.less w.re then real Scalar.infinity
  else if z.isPositiveInfinity && w.im.isZero && w.re.less Scalar.zero then real Scalar.zero
  else polarPower z w

def sin (z : Cartesian) : Cartesian :=
  if !z.re.isFinite then nan
  else ⟨if z.re.isZero then Scalar.zero else z.re.sin * z.im.cosh, z.re.cos * z.im.sinh⟩

def cos (z : Cartesian) : Cartesian :=
  if !z.re.isFinite then nan
  else ⟨z.re.cos * z.im.cosh, if z.re.isZero then Scalar.zero else -(z.re.sin * z.im.sinh)⟩

def finiteTangent (z : Cartesian) : Cartesian :=
  if (z.im + z.im).abs.exp.isInf then ⟨Scalar.zero, Scalar.one.copySign z.im⟩
  else
    let c := z.re.cos
    let s := z.im.sinh
    let denominator := s * s + c * c
    ⟨z.re.sin * c / denominator, s * z.im.cosh / denominator⟩

/-- The tangent. At an infinite imaginary part it is `± i` whatever the real part is, and finite
real numbers have real tangents. -/
def tan (z : Cartesian) : Cartesian :=
  if z.im.isInf then ⟨Scalar.zero, Scalar.one.copySign z.im⟩
  else if z.re.isZero && z.im.isNaN then ⟨Scalar.zero, Scalar.nan⟩
  else if !z.isFinite then nan
  else if z.im.isZero then ⟨z.re.tan, Scalar.zero.copySign z.im⟩
  else finiteTangent z

end Cartesian

end Reckoner
