import Reckoner.Decimal.Basic

/-! The shortest decimal that is read as a given double. The search goes from the leading decimal
place down and stops at the first place where a neighbour of the value reads back, so that no
coarser place, and no shorter decimal, would do. -/
namespace Reckoner.Decimal

def digitCount (n : Nat) : Nat :=
  if n = 0 then 0 else digitCount (n / 10) + 1

def leadingPlace (q : Rat) : Int :=
  let n := q.num.natAbs
  if q.den ≤ n then Int.ofNat (digitCount (n / q.den)) - 1
  else -Int.ofNat (digitCount ((q.den - 1) / n))

def units (q : Rat) (place : Int) : Rat :=
  q * Double.scaled 10 1 (-place)

/-- A neighbour of `q` on the grid of `10 ^ place` that is read as `x`: of two, the nearer one. -/
def readsBackAt? (x : Float) (q : Rat) (place : Int) : Option Nat :=
  let count := units q place
  let below := count.floor.toNat
  let reads (n : Nat) : Bool := toFloat ⟨false, n, place⟩ = x
  if reads below then
    if reads (below + 1) then some (Double.nearestInt count).toNat else some below
  else if reads (below + 1) then some (below + 1)
  else none

def search (x : Float) (q : Rat) : (steps : Nat) → (place : Int) → Decimal
  | 0, place => ⟨false, (units q place).floor.toNat, place⟩
  | steps + 1, place =>
    match readsBackAt? x q place with
    | some n => ⟨false, n, place⟩
    | none => search x q steps (place - 1)

/-- The shortest decimal that is read as the finite double `x`. A denominator `2 ^ j` divides
`10 ^ j`, so the exact value lies on the grid of the last place searched. -/
def shortest (x : Float) : Decimal :=
  let q := Double.exact x.abs
  if q.num = 0 then ⟨Double.isNegative x, 0, 0⟩
  else
    let start := leadingPlace q + 1
    let found := search x.abs q (start + Int.ofNat q.den.log2).toNat start
    { found with negative := Double.isNegative x }

end Reckoner.Decimal
