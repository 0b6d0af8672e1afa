import Reckoner.Builtin
import Reckoner.Node
import Reckoner.Scope

/-! What an evaluation reads and changes: variables outside of and inside functions, the functions
known, how deep in calls it is, and the time. A variable declared outside of any function is a
global and one declared in a function a local of the innermost frame; no declaration shadows. -/
namespace Reckoner

/-- The times that the clock is still going to show, one each time it is read, and the time that
elapsed time is counted from. -/
structure Clock where
  readings : Nat → Float
  start : Float

namespace Clock

def still (now start : Float) : Clock := ⟨fun _ => now, start⟩

def now (c : Clock) : Float := c.readings 0

def advance (c : Clock) : Clock := { c with readings := fun n => c.readings (n + 1) }

def elapsed (c : Clock) : Float := c.now - c.start

def reset (c : Clock) : Clock := { c.advance with start := c.now }

end Clock

structure State where
  globals : Table Value
  locals : Scope Value
  functions : Table Declaration
  builtins : List Builtin
  depth : Nat
  clock : Clock

namespace State

def bare : State :=
  ⟨Table.empty, Scope.empty, Table.empty, [], 0, .still 0.0 0.0⟩

def initial : State :=
  { bare with
    globals := Table.ofList
      [("pi", Value.real 3.141592653589793), ("e", Value.real 2.718281828459045)]
    builtins := Builtin.all }

def inFunction (s : State) : Bool := 0 < s.depth

def builtin? (s : State) (name : String) : Option Builtin :=
  s.builtins.find? fun builtin => builtin.name = name

def hasLocal (s : State) (name : String) : Bool := s.locals.contains name

def hasGlobal (s : State) (name : String) : Bool := s.globals.contains name

def hasFunction (s : State) (name : String) : Bool :=
  s.functions.contains name || (s.builtin? name).isSome

def binding? (s : State) (name : String) : Option Value :=
  match s.locals.get? name with
  | some value => some value
  | none => s.globals.get? name

def lookup (s : State) (name : String) : Except RuntimeError Value :=
  match s.binding? name with
  | some value => .ok value
  | none => .error (.unknownVariable name)

def checkFree (s : State) (name : String) : Except RuntimeError Unit :=
  if s.hasGlobal name || s.hasLocal name then .error (.variableRedeclared name) else .ok ()

def declare (s : State) (name : String) (value : Value) : Except RuntimeError State := do
  s.checkFree name
  if s.inFunction then return { s with locals := s.locals.set name value }
  else return { s with globals := s.globals.insert name value }

/-- Changes a binding. In a function a global can be read, and not assigned. -/
def assign (s : State) (name : String) (value : Value) : Except RuntimeError State :=
  match s.locals.replace name value with
  | .ok locals => .ok { s with locals }
  | .error _ =>
    if !s.hasGlobal name then .error (.undefinedAssignment name)
    else if s.inFunction then .error (.externalMutation name)
    else .ok { s with globals := s.globals.insert name value }

def define (s : State) (name : String) (declaration : Declaration) : Except RuntimeError State :=
  if s.hasFunction name then .error (.functionRedeclared name)
  else .ok { s with functions := s.functions.insert name declaration }

def openFrame (s : State) (bindings : List (String × Value)) : State :=
  { s with locals := s.locals.push bindings }

def closeFrame (s : State) : State := { s with locals := s.locals.drop }

def openCall (s : State) (bindings : List (String × Value)) : State :=
  { s.openFrame bindings with depth := s.depth + 1 }

def closeCall (s : State) : State := { s.closeFrame with depth := s.depth - 1 }

@[simp] theorem closeFrame_openFrame (s : State) (bindings : List (String × Value)) :
    (s.openFrame bindings).closeFrame = s := rfl

@[simp] theorem closeCall_openCall (s : State) (bindings : List (String × Value)) :
    (s.openCall bindings).closeCall = s := rfl

end State

end Reckoner
