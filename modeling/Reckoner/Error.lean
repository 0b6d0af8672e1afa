import Reckoner.Double.Text

/-! Why an evaluation fails, and the text that says so. -/
namespace Reckoner

inductive RuntimeError where
  | operatorType (operator left right : String) (complexOperand : Bool)
  | valueKind (message : String)
  | unknownVariable (name : String)
  | undefinedAssignment (name : String)
  | unknownFunction (name : String)
  | arity (name : String) (expected supplied : Int)
  | variableRedeclared (name : String)
  | functionRedeclared (name : String)
  | externalMutation (name : String)
  | zeroStep
  | blockShape
  | nonIntegerIndex (index : Float)
  | indexRange (length : Int) (index : Float)
  | builtinIndex (signature : String) (index : Float)
  | recursionLimit
deriving DecidableEq

namespace RuntimeError

def withArticle (kind : String) : String :=
  if kind = "number" then "a number"
  else if kind = "vector" then "a vector"
  else if kind = "array" then "an array"
  else kind

def comparison? (symbol : String) : Option String :=
  if symbol = ">" then some "greater-than"
  else if symbol = "<" then some "less-than"
  else if symbol = ">=" then some "greater-than-or-equals"
  else if symbol = "<=" then some "less-than-or-equals"
  else none

/-- The text for an operator without a meaning on its operands. Only a product, a quotient and a
power of a vector tell a complex operand apart. -/
def operatorMessage (operator left right : String) (complexOperand : Bool) : String :=
  if operator = "+" then s!"cannot add {left} to {right}"
  else if operator = "-" then s!"cannot subtract {right} from {left}"
  else if operator = "*" then
    if complexOperand then "cannot multiply a vector with a complex number"
    else s!"cannot multiply {left} with {right}"
  else if operator = "/" then
    if complexOperand then "cannot divide a vector by a complex number"
    else s!"cannot divide {left} by {right}"
  else if operator = "%" then s!"cannot find remainder between {left} and {right}"
  else if operator = "^" then
    if complexOperand then "cannot raise vector to a complex power"
    else s!"cannot raise {left} to {right} power"
  else match comparison? operator with
    | some words => s!"cannot compare {words} between {left} and {right}"
    | none => s!"operator {operator} is undefined between {left} and {right}"

def message : RuntimeError → String
  | operatorType operator left right complexOperand =>
    operatorMessage operator (withArticle left) (withArticle right) complexOperand
  | valueKind message => message
  | unknownVariable name => s!"unknown variable: {name}"
  | undefinedAssignment name => s!"use of undefined variable: {name}"
  | unknownFunction name => s!"unknown function: {name}"
  | arity name expected supplied =>
    s!"{name} expects {expected} parameters, but only {supplied} were supplied"
  | variableRedeclared name => s!"you cannot redeclare a variable: {name}"
  | functionRedeclared name => s!"redeclared a function that already is defined: {name}"
  | externalMutation name =>
    s!"attempted to affect external variable {name} from within a function"
  | zeroStep => "a step cannot be 0"
  | blockShape => "a block must end with an expression"
  | nonIntegerIndex _ => "cannot index arrays with non-integers"
  | indexRange length index =>
    let position := Double.text index
    s!"attempted to index array of length {length} with index {position}"
  | builtinIndex signature index =>
    let position := Double.text index
    s!"cannot index array in {signature} where y is {position}"
  | recursionLimit => "maximum recursion depth exceeded while evaluating"

end RuntimeError

end Reckoner
