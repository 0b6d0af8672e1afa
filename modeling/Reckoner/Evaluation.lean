import Reckoner.Loop

/-! Evaluation of syntax trees. `Eval.step` says what a node does in terms of what the nodes it
leads to do; `Eval.evalNode` closes it up to a limit on nesting, and reaching that limit is a
failure of the program. -/
namespace Reckoner

structure Limits where
  nesting : Nat
  passes : Nat
deriving DecidableEq

/-- Nesting is cut off where a runaway recursion shows; loops may run for as long as they like. -/
def Limits.standard : Limits := ⟨400, 0x4000000000000000⟩

namespace Eval

variable (eval : Node → Eval Value)

def evalAll : List Node → Eval (List Value)
  | [] => pure []
  | node :: rest => do
    let value ← eval node
    let values ← evalAll rest
    return value :: values

def evalSequence (last : Value) : List Node → Eval Value
  | [] => pure last
  | node :: rest => do
    let value ← eval node
    evalSequence value rest

def evalReal (message : String) (node : Node) : Eval Float := do
  let value ← eval node
  ofExcept (value.expectReal message)

/-- A call. The number of arguments is checked before any of them is evaluated. -/
def evalCall (name : String) (arguments : List Node) : Eval Value := do
  let s ← query .ok
  match s.builtin? name with
  | some builtin =>
    if arguments.length = builtin.arity then
      let values ← evalAll eval arguments
      runBuiltin builtin values
    else fail (.arity name (Int.ofNat builtin.arity) (Int.ofNat arguments.length))
  | none =>
    match s.functions.get? name with
    | none => fail (.unknownFunction name)
    | some declaration =>
      if arguments.length = declaration.parameters.length then
        let values ← evalAll eval arguments
        let s ← query .ok
        note (.calling name (s.depth + 1))
        withCall (declaration.parameters.zip values) (eval declaration.body)
      else
        fail (.arity name (Int.ofNat declaration.parameters.length) (Int.ofNat arguments.length))

def evalBounds (first second step : Node) : Eval Bounds := do
  let a ← evalReal eval "the first bound must be a real number" first
  let b ← evalReal eval "the second bound must be a real number" second
  let s ← evalReal eval "the step must be a number" step
  ofExcept (Bounds.ofStep a b s)

def evalPass (counter : String) (body : Node) (position : Float) (total : Value) : Eval Value :=
  withFrame [(counter, Value.real position)] do
    let value ← eval body
    ofExcept (Operator.add.apply total value)

/-- A block opens a frame; an empty one is zero, and one that ends in a declaration has no value. -/
def evalBlock (nodes : List Node) : Eval Value :=
  match nodes.getLast? with
  | none => pure Value.zero
  | some node =>
    if node.isDeclaration then fail .blockShape
    else withFrame [] (evalSequence eval Value.zero nodes)

/-- Assigns to one name after another; those before one that fails stay assigned. -/
def assignAll (value : Value) : List String → Eval Unit
  | [] => pure ()
  | name :: rest => do
    update (·.assign name value)
    assignAll value rest

def step (passes : Nat) : Node → Eval Value
  | .number value imaginary =>
    pure (.number (if imaginary then Number.imaginary value else Number.real value))
  | .identifier name => query (·.lookup name)
  | .operation left operator right => do
    let a ← eval left
    let b ← eval right
    ofExcept (operator.apply a b)
  | .call name arguments => evalCall eval name arguments
  | .define name parameters body => do
    define name ⟨parameters, body⟩
    return Value.zero
  | .declare name expression => do
    query (·.checkFree name)
    let value ← eval expression
    declare name value
    return Value.zero
  | .conditional predicate ifTrue ifFalse => do
    let p ← evalReal eval "a predicate to a conditional expression must be a number" predicate
    if p != 0.0 then eval ifTrue else eval ifFalse
  | .range _ _ _ => throw (.malformed .misplacedRange)
  | .loop counter first second step body => do
    let b ← evalBounds eval first second step
    runLoop b (evalPass eval counter body) passes
  | .assign targets expression => do
    let value ← eval expression
    assignAll value targets
    return value
  | .factorial expression => do
    let value ← eval expression
    ofExcept value.factorial
  | .block nodes => evalBlock eval nodes
  | .array items => do
    let values ← evalAll eval items
    return .array values
  | .index array position => do
    let value ← eval array
    let items ← ofExcept (value.expectArray "cannot index a non-array")
    let i ← evalReal eval "tried to index using non-number" position
    ofExcept (Value.itemAt items i)
  | .hole => throw (.malformed .hole)

/-- The value of a node, with at most `nesting` evaluations open at once. -/
def evalNode (passes : Nat) : (nesting : Nat) → Node → Eval Value
  | 0, _ => fail .recursionLimit
  | nesting + 1, node => step (evalNode passes nesting) passes node

end Eval

def evaluate (limits : Limits) (node : Node) : Eval Value :=
  Eval.evalNode limits.passes limits.nesting node

def execute (limits : Limits) (node : Node) : Eval Value := do
  Eval.changeClock Clock.reset
  Eval.note (.executing node.form)
  let value ← evaluate limits node
  Eval.note (.finished value.kind)
  return value

def executeReporting (limits : Limits) (node : Node) : Eval (Except RuntimeError Value) := fun m =>
  match execute limits node m with
  | .ok value m => .ok (.ok value) m
  | .error (.error error) m => .ok (.error error) { m with log := m.log.push (.failed error) }
  | .error stop m => .error stop m

end Reckoner
