import Reckoner.Operator

/-! Syntax trees of programs. -/
namespace Reckoner

/-- A program or a part of one. Every node is an expression; a declaration has the value zero.
A `range` stands for no value, and a `hole` is a place where the tree has no node. -/
inductive Node where
  | number (value : Float) (imaginary : Bool)
  | identifier (name : String)
  | operation (left : Node) (operator : Operator) (right : Node)
  | call (name : String) (arguments : List Node)
  | define (name : String) (parameters : List String) (body : Node)
  | declare (name : String) (expression : Node)
  | conditional (predicate ifTrue ifFalse : Node)
  | range (first second step : Node)
  | loop (counter : String) (first second step body : Node)
  | assign (targets : List String) (expression : Node)
  | factorial (expression : Node)
  | block (nodes : List Node)
  | array (items : List Node)
  | index (array position : Node)
  | hole

instance : Inhabited Node := ⟨.hole⟩

inductive Form where
  | number
  | identifier
  | operation
  | call
  | define
  | declare
  | conditional
  | range
  | loop
  | assign
  | factorial
  | block
  | array
  | index
  | hole
deriving DecidableEq, Repr

namespace Node

def form : Node → Form
  | number .. => .number
  | identifier .. => .identifier
  | operation .. => .operation
  | call .. => .call
  | define .. => .define
  | declare .. => .declare
  | conditional .. => .conditional
  | range .. => .range
  | loop .. => .loop
  | assign .. => .assign
  | factorial .. => .factorial
  | block .. => .block
  | array .. => .array
  | index .. => .index
  | hole => .hole

def isDeclaration : Node → Bool
  | define .. => true
  | declare .. => true
  | _ => false

end Node

structure Declaration where
  parameters : List String
  body : Node

end Reckoner
