/-! Doubles as exact rationals: the value of a finite double, its sign, and the roundings that
are decided on the value and not on the bits. -/
namespace Reckoner.Double

def infinity : Float := 1.0 / 0.0

def nan : Float := 0.0 / 0.0

def leastNormal : Float := Float.ofBits 0x0010000000000000

def scaled (base : Nat) (significand : Int) : (exponent : Int) → Rat
  | .ofNat n => mkRat (significand * Int.ofNat (Nat.pow base n)) 1
  | .negSucc n => mkRat significand (Nat.pow base (n + 1))

/-- The rational that a finite double stands for; zero for infinities and for NaN. -/
def exact (x : Float) : Rat :=
  match x.toModel.unpack with
  | .finite .positive m e _ => scaled 2 (Int.ofNat m) e
  | .finite .negative m e _ => scaled 2 (-Int.ofNat m) e
  | _ => 0

def isNegative (x : Float) : Bool :=
  match x.toModel.unpack with
  | .finite .negative _ _ _ => true
  | .zero .negative => true
  | .infinity .negative => true
  | _ => false

def isInteger (x : Float) : Bool :=
  x.isFinite && (exact x).den == 1

def copySign (magnitude sign : Float) : Float :=
  if isNegative sign then -magnitude.abs else magnitude.abs

def truncate (x : Float) : Float :=
  if x.isFinite then
    copySign (Float.ofNat ((exact x).num.natAbs / (exact x).den)) x
  else x

def isSubnormal (x : Float) : Bool :=
  !(x == 0.0) && x.abs < leastNormal

def flush (x : Float) : Float :=
  if x.abs < leastNormal then copySign 0.0 x else x

def lift : Float := Float.ofBits 0x4350000000000000

/-- The flushed value of a product or quotient `x` for which `lifted` is the same result with one
operand multiplied by `lift`. The lifted result has all its bits, so it tells an exact least normal
double from one that was rounded up to it from below; the latter counts as subnormal too. -/
def flushBeside (lifted x : Float) : Float :=
  if x.abs == leastNormal && lifted.abs < leastNormal * lift then copySign 0.0 x else flush x

/-- The integer nearest to `q`; of two at the same distance, the even one. -/
def nearestInt (q : Rat) : Int :=
  let below := q.num / Int.ofNat q.den
  let rest := (q.num % Int.ofNat q.den).toNat
  if 2 * rest < q.den then below
  else if q.den < 2 * rest then below + 1
  else if below % 2 = 0 then below
  else below + 1

def ofRat (q : Rat) : Float :=
  let shift := 64 + Int.ofNat q.den.log2 - Int.ofNat q.num.natAbs.log2
  Float.scaleB (Float.ofInt (nearestInt (q * scaled 2 1 shift))) (-shift)

end Reckoner.Double
