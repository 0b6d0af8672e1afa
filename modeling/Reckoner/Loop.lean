import Reckoner.Machine

/-! Counting loops. The counter moves from the first bound toward the second by steps of one size;
as soon as a step would reach or pass the second bound, the last pass is made at that bound. -/
namespace Reckoner

structure Bounds where
  first : Float
  second : Float
  step : Float
deriving DecidableEq

namespace Bounds

def ascending (b : Bounds) : Bool := b.first < b.second

def short (b : Bounds) (position : Float) : Bool :=
  if b.ascending then position < b.second else b.second < position

def next (b : Bounds) (position : Float) : Float :=
  if b.ascending then position + b.step else position - b.step

/-- The bounds made of three values. The sign of the step does not count. -/
def ofStep (first second step : Float) : Except RuntimeError Bounds :=
  if step == 0.0 then .error .zeroStep else .ok ⟨first, second, step.abs⟩

end Bounds

namespace Eval

/-- The passes from `position` on, each of which turns the running total into the next one. At
most `passes` of them may be made short of the second bound. -/
def runPasses (b : Bounds) (pass : Float → Value → Eval Value) :
    (passes : Nat) → (position : Float) → (total : Value) → Eval Value
  | 0, _, _ => throw .unfinished
  | passes + 1, position, total => do
    let total ← pass position total
    if b.short (b.next position) then runPasses b pass passes (b.next position) total
    else pass b.second total

def runLoop (b : Bounds) (pass : Float → Value → Eval Value) (passes : Nat) : Eval Value :=
  if b.short b.first then runPasses b pass passes b.first Value.zero else pure Value.zero

end Eval

end Reckoner
