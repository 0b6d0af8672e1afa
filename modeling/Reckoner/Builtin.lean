import Reckoner.Value.Text

/-! The functions that every program starts with. Each has a fixed number of arguments; apart from
`print`, which writes a line, and `clock`, which reads the elapsed time, they depend on their
arguments alone. -/
namespace Reckoner

inductive Builtin where
  | vec
  | x
  | y
  | sin
  | cos
  | tan
  | log
  | logn
  | ln
  | print
  | conjugate
  | re
  | im
  | len
  | rm
  | ins
  | mem
  | clock
deriving DecidableEq, Repr

namespace Builtin

def all : List Builtin :=
  [vec, x, y, sin, cos, tan, log, logn, ln, print, conjugate, re, im, len, rm, ins, mem, clock]

def name : Builtin → String
  | vec => "vec"
  | x => "x"
  | y => "y"
  | sin => "sin"
  | cos => "cos"
  | tan => "tan"
  | log => "log"
  | logn => "logn"
  | ln => "ln"
  | print => "print"
  | conjugate => "conjugate"
  | re => "Re"
  | im => "Im"
  | len => "len"
  | rm => "rm"
  | ins => "ins"
  | mem => "mem"
  | clock => "clock"

def arity : Builtin → Nat
  | vec => 2
  | logn => 2
  | rm => 2
  | ins => 3
  | _ => 1

def ofName? (name : String) : Option Builtin :=
  all.find? fun builtin => builtin.name = name

@[simp] theorem ofName?_name (builtin : Builtin) : ofName? builtin.name = some builtin := by
  cases builtin <;> rfl

def applyKernel (f : Cartesian → Cartesian) (message : String) (v : Value) :
    Except RuntimeError Value := do
  let z ← v.expectNumber message
  return .number (z.map f)

def position (signature : String) (items : List Value) (index : Float) :
    Except RuntimeError Nat :=
  match Value.position? items.length index with
  | some i => .ok i
  | none => .error (.builtinIndex signature index)

def remove (array index : Value) : Except RuntimeError Value := do
  let items ← array.expectArray "expected an array to remove value from"
  let i ← index.expectReal "expected a real number to index array with in rm(x, y)"
  let p ← position "rm(x, y)" items i
  return .array (items.take p ++ items.drop (p + 1))

def insert (array index item : Value) : Except RuntimeError Value := do
  let items ← array.expectArray "expected an array to insert value into"
  let i ← index.expectReal "expected a real number to index array with in ins(x, y, z)"
  let p ← position "ins(x, y, z)" items i
  return .array (items.take p ++ item :: items.drop p)

/-- The value of a builtin on arguments of the right number, when `elapsed` has passed. -/
def apply (elapsed : Float) : Builtin → List Value → Except RuntimeError Value
  | vec, [a, b] => do
    let x ← a.expectReal "the x component of the vector is not a number"
    let y ← b.expectReal "the y component of the vector is not a number"
    return .vector ⟨x, y⟩
  | x, [v] => do
    let w ← v.expectVector "expected vector to take x component out of"
    return Value.real w.x
  | y, [v] => do
    let w ← v.expectVector "expected vector to take y component out of"
    return Value.real w.y
  | sin, [v] => applyKernel Cartesian.sin "expected number to find sine of" v
  | cos, [v] => applyKernel Cartesian.cos "expected number to find cosine of" v
  | tan, [v] => applyKernel Cartesian.tan "expected number to find tangent of" v
  | ln, [v] => applyKernel Cartesian.log "expected number to find natural logarithm of" v
  | log, [v] =>
    applyKernel (Cartesian.logBase (Scalar.of 10.0)) "expected number to find logarithm of" v
  | logn, [b, v] => do
    let base ← b.expectReal "expected real base to logarithm"
    applyKernel (Cartesian.logBase ⟨base⟩) "expected number to find logarithm of" v
  | print, [v] => .ok v
  | conjugate, [v] => do
    let z ← v.expectNumber "expected a complex number to find conjugate of"
    return .number z.conjugate
  | re, [v] => do
    let z ← v.expectNumber "expected a complex number to find real part of"
    return Value.real z.re
  | im, [v] => do
    let z ← v.expectNumber "expected a complex number to find imaginary part of"
    return Value.real z.im
  | len, [v] => do
    let items ← v.expectArray "expected an array to find length of"
    return Value.real (Float.ofNat items.length)
  | rm, [array, index] => remove array index
  | ins, [array, index, item] => insert array index item
  | mem, [v] => .ok (Value.real (Float.ofNat v.memSize))
  | clock, [v] => do
    let offset ← v.expectReal "expected real number in clock(x)"
    return Value.real (elapsed - offset)
  | builtin, arguments =>
    .error (.arity builtin.name (Int.ofNat builtin.arity) (Int.ofNat arguments.length))

def printed : Builtin → List Value → List String
  | print, [v] => [v.text]
  | _, _ => []

end Builtin

end Reckoner
