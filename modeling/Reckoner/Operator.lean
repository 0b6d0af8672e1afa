import Reckoner.Value.Basic

/-! The binary operators and what they do on each pair of kinds. A pair without a meaning fails
with an error that names both kinds in the order in which they were written. -/
namespace Reckoner

inductive Operator where
  | add
  | subtract
  | multiply
  | divide
  | remainder
  | power
  | equal
  | greater
  | less
  | greaterOrEqual
  | lessOrEqual
deriving DecidableEq, Repr

namespace Operator

def symbol : Operator → String
  | add => "+"
  | subtract => "-"
  | multiply => "*"
  | divide => "/"
  | remainder => "%"
  | power => "^"
  | equal => "=="
  | greater => ">"
  | less => "<"
  | greaterOrEqual => ">="
  | lessOrEqual => "<="

def all : List Operator :=
  [add, subtract, multiply, divide, remainder, power, equal, greater, less, greaterOrEqual,
    lessOrEqual]

def ofSymbol? (symbol : String) : Option Operator :=
  all.find? fun operator => operator.symbol = symbol

@[simp] theorem ofSymbol?_symbol (operator : Operator) :
    ofSymbol? operator.symbol = some operator := by
  cases operator <;> rfl

def mismatch (operator : Operator) (left right : Value) (complexOperand : Bool) : RuntimeError :=
  .operatorType operator.symbol left.kind.name right.kind.name complexOperand

def scale (operator : Operator) (f : Scalar → Scalar → Scalar) (v : Vec) (s : Number)
    (left right : Value) : Except RuntimeError Value :=
  if s.isReal then .ok (.vector (v.scaleWith f s.re))
  else .error (operator.mismatch left right true)

/-- An array takes the other operand as its new last item; with two arrays, the left one does. -/
def applyAdd (left right : Value) : Except RuntimeError Value :=
  match left, right with
  | .array items, _ => .ok (.array (items ++ [right]))
  | _, .array items => .ok (.array (items ++ [left]))
  | .number a, .number b => .ok (.number (Number.zipWith (· + ·) a b))
  | .vector v, .vector w => .ok (.vector (Vec.zipWith (· + ·) v w))
  | _, _ => .error (add.mismatch left right false)

def applySubtract (left right : Value) : Except RuntimeError Value :=
  match left, right with
  | .number a, .number b => .ok (.number (Number.zipWith (· - ·) a b))
  | .vector v, .vector w => .ok (.vector (Vec.zipWith (· - ·) v w))
  | _, _ => .error (subtract.mismatch left right false)

def applyMultiply (left right : Value) : Except RuntimeError Value :=
  match left, right with
  | .number a, .number b => .ok (.number (Number.zipWith (· * ·) a b))
  | .number s, .vector v => multiply.scale (· * ·) v s left right
  | .vector v, .number s => multiply.scale (· * ·) v s left right
  | _, _ => .error (multiply.mismatch left right false)

/-- A vector over a number is the vector times the reciprocal of the number. A number over a vector
means the same as the vector over the number. -/
def applyDivide (left right : Value) : Except RuntimeError Value :=
  match left, right with
  | .number a, .number b => .ok (.number (Number.zipWith (· / ·) a b))
  | .number s, .vector v => divide.scale Scalar.timesReciprocal v s left right
  | .vector v, .number s => divide.scale Scalar.timesReciprocal v s left right
  | _, _ => .error (divide.mismatch left right false)

def applyRemainder (left right : Value) : Except RuntimeError Value :=
  match left, right with
  | .number a, .number b => .ok (.number (Number.zipWith Cartesian.remainder a b))
  | _, _ => .error (remainder.mismatch left right false)

def applyPower (left right : Value) : Except RuntimeError Value :=
  match left, right with
  | .number a, .number b => .ok (.number (a.power b))
  | .vector v, .number s => power.scale Scalar.pow v s left right
  | _, _ => .error (power.mismatch left right false)

/-- Numbers are ordered by their distance from zero. -/
def applyCompare (operator : Operator) (holds : Float → Float → Bool) (left right : Value) :
    Except RuntimeError Value :=
  match left, right with
  | .number a, .number b => .ok (.number (Number.ofBool (holds a.modulus b.modulus)))
  | _, _ => .error (operator.mismatch left right false)

def apply (operator : Operator) (left right : Value) : Except RuntimeError Value :=
  match operator with
  | add => applyAdd left right
  | subtract => applySubtract left right
  | multiply => applyMultiply left right
  | divide => applyDivide left right
  | remainder => applyRemainder left right
  | power => applyPower left right
  | equal => .ok (.number (Number.ofBool (left.equal right)))
  | greater => applyCompare greater (fun a b => b < a) left right
  | less => applyCompare less (fun a b => a < b) left right
  | greaterOrEqual => applyCompare greaterOrEqual (fun a b => b ≤ a) left right
  | lessOrEqual => applyCompare lessOrEqual (fun a b => a ≤ b) left right

end Operator

end Reckoner
