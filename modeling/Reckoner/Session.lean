import Reckoner.Evaluation

/-! Sessions: one machine kept over many requests, with frames that are opened by one request and
closed by another. -/
namespace Reckoner

inductive FrameKind where
  | block
  | call
deriving DecidableEq, Repr

/-- A machine and the frames opened by requests, the innermost first. -/
structure Session where
  machine : Machine
  opened : List FrameKind

namespace Session

def start (state : State) : Session := ⟨Machine.ofState state, []⟩

def modifyState (s : Session) (f : State → State) : Session :=
  { s with machine := { s.machine with state := f s.machine.state } }

def clearTranscript (s : Session) : Session :=
  { s with machine := s.machine.clearTranscript }

def run {α : Type} (s : Session) (computation : Eval α) : Except Stop α × Session :=
  match computation s.machine with
  | .ok value machine => (.ok value, { s with machine })
  | .error stop machine => (.error stop, { s with machine })

def enter (s : Session) (kind : FrameKind) (bindings : List (String × Value)) : Session :=
  let opened := s.modifyState fun state =>
    match kind with
    | .block => state.openFrame bindings
    | .call => state.openCall bindings
  { opened with opened := kind :: s.opened }

def leave (s : Session) : Session :=
  match s.opened with
  | [] => s
  | .block :: rest => { s.modifyState State.closeFrame with opened := rest }
  | .call :: rest => { s.modifyState State.closeCall with opened := rest }

def setTime (s : Session) (now : Float) : Session :=
  s.modifyState fun state => { state with clock := .still now state.clock.start }

end Session

end Reckoner
