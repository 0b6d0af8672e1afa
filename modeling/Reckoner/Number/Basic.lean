import Reckoner.Cartesian

/-! Complex numbers as programs hold them, with subnormal parts kept. Arithmetic on them goes
through the Cartesian kernels, which flush subnormals. -/
namespace Reckoner

structure Number where
  re : Float
  im : Float
deriving DecidableEq

def Cartesian.number (z : Cartesian) : Number := ⟨z.re.read, z.im.read⟩

namespace Number

def real (re : Float) : Number := ⟨re, 0.0⟩

def imaginary (im : Float) : Number := ⟨0.0, im⟩

def ofBool (flag : Bool) : Number := if flag then real 1.0 else real 0.0

def isReal (n : Number) : Bool := n.im == 0.0

@[simp] theorem isReal_real (re : Float) : (real re).isReal = true := by
  change ((0.0 : Float) == 0.0) = true
  decide +kernel

def isZero (n : Number) : Bool := n.re == 0.0 && n.im == 0.0

/-- Equality of both parts as doubles: zeros of either sign agree, and a NaN equals nothing. -/
def same (a b : Number) : Bool := a.re == b.re && a.im == b.im

def conjugate (n : Number) : Number := ⟨n.re, -n.im⟩

def cartesian (n : Number) : Cartesian := ⟨⟨n.re⟩, ⟨n.im⟩⟩

def map (f : Cartesian → Cartesian) (n : Number) : Number := (f n.cartesian).number

def zipWith (f : Cartesian → Cartesian → Cartesian) (a b : Number) : Number :=
  (f a.cartesian b.cartesian).number

def modulus (n : Number) : Float := n.cartesian.modulus.read

/-- A power of a number: zero to any power is zero, and then any power zero is one. Both are
decided before subnormals are flushed. -/
def power (a b : Number) : Number :=
  if a.isZero then real 0.0
  else if b.isZero then real 1.0
  else zipWith Cartesian.power a b

end Number

end Reckoner
