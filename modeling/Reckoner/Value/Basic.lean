import Reckoner.Error
import Reckoner.Number.Factorial
import Reckoner.Vec

/-! Runtime values: complex numbers, vectors of the plane, and arrays of values of any kind.
Kinds never convert into one another. -/
namespace Reckoner

inductive Kind where
  | number
  | vector
  | array
deriving DecidableEq, Repr

def Kind.name : Kind → String
  | .number => "number"
  | .vector => "vector"
  | .array => "array"

inductive Value where
  | number (n : Number)
  | vector (v : Vec)
  | array (items : List Value)

namespace Value

instance : Inhabited Value := ⟨.array []⟩

def real (re : Float) : Value := .number (Number.real re)

def zero : Value := real 0.0

def kind : Value → Kind
  | .number _ => .number
  | .vector _ => .vector
  | .array _ => .array

def slotSize : Nat := 32

mutual

/-- One slot for the value and one for every value inside it, at any depth. -/
def memSize : Value → Nat
  | .array items => slotSize + memSizeAll items
  | _ => slotSize

def memSizeAll : List Value → Nat
  | [] => 0
  | item :: rest => item.memSize + memSizeAll rest

end

theorem memSizeAll_append (items others : List Value) :
    memSizeAll (items ++ others) = memSizeAll items + memSizeAll others := by
  induction items with
  | nil => simp [memSizeAll]
  | cons item rest ih => simp [memSizeAll, ih, Nat.add_assoc]

mutual

def same : Value → Value → Bool
  | .number a, .number b => a.same b
  | .vector v, .vector w => v.same w
  | .array items, .array others => sameAll items others
  | _, _ => false

def sameAll : List Value → List Value → Bool
  | [], [] => true
  | a :: rest, b :: others => a.same b && sameAll rest others
  | _, _ => false

end

/-- The language's equality: false across kinds, and never true of arrays. -/
def equal : Value → Value → Bool
  | .number a, .number b => a.same b
  | .vector v, .vector w => v.same w
  | _, _ => false

def expectReal (message : String) : Value → Except RuntimeError Float
  | .number n => if n.isReal then .ok n.re else .error (.valueKind message)
  | _ => .error (.valueKind message)

def expectNumber (message : String) : Value → Except RuntimeError Number
  | .number n => .ok n
  | _ => .error (.valueKind message)

def expectVector (message : String) : Value → Except RuntimeError Vec
  | .vector v => .ok v
  | _ => .error (.valueKind message)

def expectArray (message : String) : Value → Except RuntimeError (List Value)
  | .array items => .ok items
  | _ => .error (.valueKind message)

def gamma (v : Value) : Except RuntimeError Value :=
  (v.expectNumber "cannot calculate gamma for non-number").map fun z => .number z.gamma

def factorial (v : Value) : Except RuntimeError Value :=
  (v.expectNumber "attempted to find factorial of non-number").map fun z => .number z.factorial

def position? (length : Nat) (index : Float) : Option Nat :=
  if Double.isInteger index then
    let i := (Double.exact index).num
    if 0 ≤ i ∧ i.toNat < length then some i.toNat else none
  else none

def itemAt (items : List Value) (index : Float) : Except RuntimeError Value :=
  if Double.isInteger index then
    match (position? items.length index).bind (items[·]?) with
    | some item => .ok item
    | none => .error (.indexRange (Int.ofNat items.length) index)
  else .error (.nonIntegerIndex index)

end Value

end Reckoner
