import Reckoner.Double.Basic

/-! Scalars of the arithmetic kernels. A scalar may be given as a subnormal, but arithmetic reads
it as the zero of its sign and yields no subnormal, so that a formula over scalars flushes all that
it passes through. Only signs, powers and angles see the double as it was given. -/
namespace Reckoner

structure Scalar where
  val : Float
deriving DecidableEq

namespace Scalar

def of (x : Float) : Scalar :=
  ⟨Double.flush x⟩

def read (a : Scalar) : Float := Double.flush a.val

def zero : Scalar := ⟨0.0⟩

def one : Scalar := ⟨1.0⟩

def two : Scalar := ⟨2.0⟩

def infinity : Scalar := ⟨Double.infinity⟩

def nan : Scalar := ⟨Double.nan⟩

instance : Add Scalar := ⟨fun a b => of (a.read + b.read)⟩

instance : Sub Scalar := ⟨fun a b => of (a.read - b.read)⟩

instance : Mul Scalar :=
  ⟨fun a b => ⟨Double.flushBeside (a.read * Double.lift * b.read) (a.read * b.read)⟩⟩

instance : Div Scalar :=
  ⟨fun a b => ⟨Double.flushBeside (a.read * Double.lift / b.read) (a.read / b.read)⟩⟩

instance : Neg Scalar := ⟨fun a => ⟨-a.val⟩⟩

/-- `a` times the reciprocal of `b`. Both steps round, so this is not always `a / b`, and it is
zero where the reciprocal is flushed. -/
def timesReciprocal (a b : Scalar) : Scalar := a * (one / b)

def isZero (a : Scalar) : Bool := a.read == 0.0

def isNaN (a : Scalar) : Bool := a.val.isNaN

def isInf (a : Scalar) : Bool := a.val.isInf

def isFinite (a : Scalar) : Bool := a.val.isFinite

def less (a b : Scalar) : Bool := a.read < b.read

def abs (a : Scalar) : Scalar := ⟨a.val.abs⟩

def copySign (magnitude sign : Scalar) : Scalar := ⟨Double.copySign magnitude.val sign.val⟩

def truncate (a : Scalar) : Scalar := ⟨Double.truncate a.read⟩

def sqrt (a : Scalar) : Scalar := of a.read.sqrt

def exp (a : Scalar) : Scalar := of a.read.exp

def log (a : Scalar) : Scalar := of a.read.log

def logSucc (a : Scalar) : Scalar :=
  let sum := one + a
  if (sum - one).isZero then of a.read else sum.log * (a / (sum - one))

def sin (a : Scalar) : Scalar := of a.read.sin

def cos (a : Scalar) : Scalar := of a.read.cos

def tan (a : Scalar) : Scalar := of a.read.tan

/-- The hyperbolic sine. It overflows as soon as the exponential does. -/
def sinh (a : Scalar) : Scalar :=
  if a.abs.exp.isInf then infinity.copySign a else of a.read.sinh

def cosh (a : Scalar) : Scalar :=
  if a.abs.exp.isInf then infinity else of a.read.cosh

def subnormalExponent : Float := -1075.0

def pow (a b : Scalar) : Scalar :=
  if Double.isSubnormal a.val then
    of (Float.pow (Double.copySign 1.0 a.val) b.val * Float.exp2 (subnormalExponent * b.val))
  else of (Float.pow a.val b.val)

def quarterTurn : Scalar := ⟨1.5707963267948966⟩

def halfTurn : Scalar := ⟨3.141592653589793⟩

def farFromSubnormal : Scalar := ⟨Float.ofBits 0x0390000000000000⟩

/-- The angle of the point `(x, y)`, where `y` is subnormal. At a zero abscissa it is a quarter turn
with the sign of `y`. Far to the left it is the negative half turn on either side, because there
`y` is compared with zero; everywhere else `y` counts as the zero of its sign. -/
def angleAtSubnormal (y x : Scalar) : Scalar :=
  if x.isZero then quarterTurn.copySign y
  else if x.isFinite && x.less zero && !x.abs.less farFromSubnormal then -halfTurn
  else of (Float.atan2 y.read x.read)

def angle (y x : Scalar) : Scalar :=
  if Double.isSubnormal y.val then angleAtSubnormal y x else of (Float.atan2 y.read x.read)

end Scalar

end Reckoner
