import Reckoner.State

/-! A state with the transcript of what was printed and noted on the way, and the effectful
computations over it. A computation that stops keeps all that it did before. -/
namespace Reckoner

inductive Record where
  | executing (form : Form)
  | finished (kind : Kind)
  | failed (error : RuntimeError)
  | declaredVariable (isGlobal : Bool) (name : String)
  | declaredFunction (name : String) (arity : Nat)
  | calling (name : String) (depth : Nat)
deriving DecidableEq

namespace Record

inductive Topic where
  | run
  | names
deriving DecidableEq, Repr

def topic : Record → Topic
  | declaredVariable .. => .names
  | declaredFunction .. => .names
  | _ => .run

def message (label : Form → String) : Record → String
  | executing form =>
    let what := label form
    s!"executing {what}"
  | finished kind =>
    let what := kind.name
    s!"execution finished with a {what}"
  | failed error =>
    let why := error.message
    s!"execution failed: {why}"
  | declaredVariable isGlobal name =>
    if isGlobal then s!"declared global {name}" else s!"declared local {name}"
  | declaredFunction name arity => s!"declared function {name}/{arity}"
  | calling name depth => s!"calling {name} at depth {depth}"

end Record

structure Machine where
  state : State
  output : Array String
  log : Array Record

namespace Machine

def ofState (state : State) : Machine := ⟨state, #[], #[]⟩

def clearTranscript (m : Machine) : Machine := ofState m.state

end Machine

inductive Malformed where
  | misplacedRange
  | hole
deriving DecidableEq, Repr

/-- Why a computation stops without a value: the program failed, the tree is no program, or a loop
made more passes than were allowed. -/
inductive Stop where
  | error (error : RuntimeError)
  | malformed (malformed : Malformed)
  | unfinished
deriving DecidableEq

abbrev Eval (α : Type) := EStateM Stop Machine α

namespace Eval

variable {α : Type}

def fail (error : RuntimeError) : Eval α := throw (.error error)

def ofExcept : Except RuntimeError α → Eval α
  | .ok value => pure value
  | .error error => fail error

def query (f : State → Except RuntimeError α) : Eval α := fun m =>
  match f m.state with
  | .ok value => .ok value m
  | .error error => .error (.error error) m

/-- Changes the state, or fails and leaves it as it is. -/
def update (f : State → Except RuntimeError State) : Eval Unit := fun m =>
  match f m.state with
  | .ok state => .ok () { m with state }
  | .error error => .error (.error error) m

def modifyState (f : State → State) : Eval Unit := fun m =>
  .ok () { m with state := f m.state }

def changeClock (f : Clock → Clock) : Eval Unit :=
  modifyState fun s => { s with clock := f s.clock }

def note (record : Record) : Eval Unit := fun m =>
  .ok () { m with log := m.log.push record }

def print (lines : List String) : Eval Unit := fun m =>
  .ok () { m with output := m.output ++ lines }

/-- Runs `body` between two changes of the state; the second is made however `body` ends. -/
def between (opening closing : State → State) (body : Eval α) : Eval α := fun m =>
  match body { m with state := opening m.state } with
  | .ok value m => .ok value { m with state := closing m.state }
  | .error stop m => .error stop { m with state := closing m.state }

def withFrame (bindings : List (String × Value)) (body : Eval α) : Eval α :=
  between (·.openFrame bindings) State.closeFrame body

def withCall (bindings : List (String × Value)) (body : Eval α) : Eval α :=
  between (·.openCall bindings) State.closeCall body

def declare (name : String) (value : Value) : Eval Unit := do
  update (·.declare name value)
  let s ← query .ok
  note (.declaredVariable (!s.inFunction) name)

def define (name : String) (declaration : Declaration) : Eval Unit := do
  update (·.define name declaration)
  note (.declaredFunction name declaration.parameters.length)

def passTime : Builtin → Eval Unit
  | .clock => changeClock Clock.advance
  | _ => pure ()

/-- Runs a builtin. The time is read once for each call of `clock` that has a value. -/
def runBuiltin (builtin : Builtin) (arguments : List Value) : Eval Value := do
  print (builtin.printed arguments)
  let value ← query fun s => builtin.apply s.clock.elapsed arguments
  passTime builtin
  return value

end Eval

end Reckoner
