import Reckoner.Scalar

/-! Vectors of the plane. -/
namespace Reckoner

structure Vec where
  x : Float
  y : Float
deriving DecidableEq

namespace Vec

def same (v w : Vec) : Bool := v.x == w.x && v.y == w.y

def zipWith (f : Scalar → Scalar → Scalar) (v w : Vec) : Vec :=
  ⟨(f ⟨v.x⟩ ⟨w.x⟩).read, (f ⟨v.y⟩ ⟨w.y⟩).read⟩

def scaleWith (f : Scalar → Scalar → Scalar) (v : Vec) (s : Float) : Vec :=
  v.zipWith f ⟨s, s⟩

end Vec

end Reckoner
