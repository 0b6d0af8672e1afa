import Reckoner.Proofs.Correspondence

/-! What an evaluation does to the machine, however it ends. A relation between the machine before
and the machine after that composes, and that every primitive change respects, holds for every tree,
every machine and every end: with a value, with a failure, or cut off by a limit. -/
namespace Reckoner

namespace Eval

variable {α β : Type}

def final (x : Eval α) (m : Machine) : Machine :=
  match x m with
  | .ok _ n => n
  | .error _ n => n

theorem final_of_ok {x : Eval α} {m n : Machine} {value : α} (ended : x m = .ok value n) :
    x.final m = n := by
  rw [final, ended]

theorem final_of_error {x : Eval α} {m n : Machine} {stop : Stop} (ended : x m = .error stop n) :
    x.final m = n := by
  rw [final, ended]

theorem bind_of_ok {x : Eval α} {f : α → Eval β} {m n : Machine} {value : α}
    (ended : x m = .ok value n) : (x >>= f) m = f value n := by
  change EStateM.bind x f m = _
  rw [EStateM.bind, ended]

theorem bind_of_error {x : Eval α} {f : α → Eval β} {m n : Machine} {stop : Stop}
    (ended : x m = .error stop n) : (x >>= f) m = .error stop n := by
  change EStateM.bind x f m = _
  rw [EStateM.bind, ended]

theorem length_of_evalAll {eval : Node → Eval Value} {nodes : List Node} {values : List Value}
    {m n : Machine} (evaluated : evalAll eval nodes m = .ok values n) :
    values.length = nodes.length := by
  induction nodes generalizing values m with
  | nil =>
    cases evaluated
    rfl
  | cons node rest ih =>
    rw [evalAll] at evaluated
    cases first : eval node m with
    | error stop k =>
      rw [bind_of_error first] at evaluated
      contradiction
    | ok value k =>
      rw [bind_of_ok first] at evaluated
      cases others : evalAll eval rest k with
      | error stop l =>
        rw [bind_of_error others] at evaluated
        contradiction
      | ok below l =>
        rw [bind_of_ok others] at evaluated
        cases evaluated
        rw [List.length_cons, List.length_cons, ih others]

@[simp] theorem final_query (f : State → Except RuntimeError α) (m : Machine) :
    (query f).final m = m := by
  unfold final query
  cases f m.state <;> rfl

theorem final_update (f : State → Except RuntimeError State) (m : Machine) :
    (update f).final m = match f m.state with
      | .ok s => { m with state := s }
      | .error _ => m := by
  unfold final update
  cases f m.state <;> rfl

theorem final_update_bind (f : State → Except RuntimeError State) (g : Unit → Eval α)
    (m : Machine) :
    (update f >>= g).final m = match f m.state with
      | .ok s => (g ()).final { m with state := s }
      | .error _ => m := by
  cases changed : f m.state with
  | ok s =>
    have ended : update f m = .ok () { m with state := s } := by simp only [update, changed]
    rw [final, bind_of_ok ended]
    rfl
  | error error =>
    have ended : update f m = .error (.error error) m := by simp only [update, changed]
    exact final_of_error (bind_of_error ended)

theorem final_declare (name : String) (value : Value) (m : Machine) :
    (declare name value).final m = match m.state.declare name value with
      | .ok s => { m with state := s, log := m.log.push (.declaredVariable (!s.inFunction) name) }
      | .error _ => m := by
  rw [declare, final_update_bind]
  rfl

theorem final_define (name : String) (declaration : Declaration) (m : Machine) :
    (define name declaration).final m = match m.state.define name declaration with
      | .ok s =>
        { m with
          state := s
          log := m.log.push (.declaredFunction name declaration.parameters.length) }
      | .error _ => m := by
  rw [define, final_update_bind]
  rfl

theorem final_between (opening closing : State → State) (body : Eval α) (m : Machine) :
    (between opening closing body).final m =
      { body.final { m with state := opening m.state } with
        state := closing (body.final { m with state := opening m.state }).state } := by
  unfold final between
  cases body { m with state := opening m.state } <;> rfl

theorem final_enter (name : String) (bindings : List (String × Value)) (body : Eval α)
    (m : Machine) :
    (enter name bindings body).final m =
      (withCall bindings body).final
        { m with log := m.log.push (.calling name (m.state.depth + 1)) } := rfl

/-- Every run of a computation leads from a machine to one that is related to it. -/
def Keeps (R : Machine → Machine → Prop) (x : Eval α) : Prop := ∀ m, R m (x.final m)

variable {R : Machine → Machine → Prop}

theorem Keeps.bind {x : Eval α} {f : α → Eval β} (first : Keeps R x)
    (trans : ∀ {l m n : Machine}, R l m → R m n → R l n) (rest : ∀ value, Keeps R (f value)) :
    Keeps R (x >>= f) := by
  intro m
  have here := first m
  cases ended : x m with
  | ok value n =>
    rw [final_of_ok ended] at here
    have step : (x >>= f).final m = (f value).final n := by rw [final, bind_of_ok ended]; rfl
    rw [step]
    exact trans here (rest value n)
  | error stop n =>
    rw [final_of_error ended] at here
    rw [final_of_error (bind_of_error ended)]
    exact here

/-- A relation that composes and that every primitive change of the machine respects. A frame or a
call is respected as a whole: what is related while it is open is related once it is closed. -/
structure Effect (R : Machine → Machine → Prop) : Prop where
  refl (m : Machine) : R m m
  trans {l m n : Machine} : R l m → R m n → R l n
  declare (name : String) (value : Value) : Keeps R (declare name value)
  assign (name : String) (value : Value) : Keeps R (update (·.assign name value))
  define (name : String) (declaration : Declaration) : Keeps R (define name declaration)
  print (lines : List String) : Keeps R (print lines)
  clock (f : Clock → Clock) : Keeps R (changeClock f)
  frame {m n : Machine} (bindings : List (String × Value)) :
    R { m with state := m.state.openFrame bindings } n →
    R m { n with state := n.state.closeFrame }
  call {m n : Machine} (name : String) (bindings : List (String × Value)) :
    R { m with
        state := m.state.openCall bindings
        log := m.log.push (.calling name (m.state.depth + 1)) } n →
    R m { n with state := n.state.closeCall }

namespace Effect

variable (h : Effect R)

include h

theorem bind {x : Eval α} {f : α → Eval β} (first : Keeps R x)
    (rest : ∀ value, Keeps R (f value)) : Keeps R (x >>= f) :=
  first.bind h.trans rest

theorem query (f : State → Except RuntimeError α) : Keeps R (Eval.query f) := by
  intro m
  rw [final_query]
  exact h.refl m

theorem withFrame (bindings : List (String × Value)) {x : Eval α} (body : Keeps R x) :
    Keeps R (Eval.withFrame bindings x) := by
  intro m
  rw [Eval.withFrame, final_between]
  exact h.frame bindings (body _)

theorem enter (name : String) (bindings : List (String × Value)) {x : Eval α}
    (body : Keeps R x) : Keeps R (Eval.enter name bindings x) := by
  intro m
  rw [final_enter, withCall, final_between]
  exact h.call name bindings (body _)

theorem closed : Closed (fun _ => True) (fun {_} x => Keeps R x) where
  child _ _ := trivial
  pure _ := h.refl
  bind := h.bind
  fail _ := h.refl
  unfinished := h.refl
  misplacedRange _ := h.refl
  hole _ := h.refl
  query := h.query
  declare value _ := h.declare _ value
  assign value _ _ := h.assign _ value
  define _ := h.define _ _
  callee := by
    intro name _ f _ builtin function unknown m
    have known : Keeps R (f (m.state.callee name)) :=
      m.state.callee_cases (P := fun c => Keeps R (f c)) builtin
        (fun declaration _ => function declaration trivial) unknown
    exact known m
  print := h.print
  clock := h.clock
  frame bindings body := h.withFrame bindings body
  call name bindings body := h.enter name bindings body

theorem evalNode (passes nesting : Nat) (node : Node) :
    Keeps R (Eval.evalNode passes nesting node) :=
  h.closed.evalNode passes nesting trivial

theorem evalAll (passes nesting : Nat) (nodes : List Node) :
    Keeps R (Eval.evalAll (Eval.evalNode passes nesting) nodes) := by
  induction nodes with
  | nil => exact h.refl
  | cons node rest ih =>
    exact h.bind (h.evalNode passes nesting node) fun _ => h.bind ih fun _ m => h.refl m

end Effect

end Eval

structure State.Effect (S : State → State → Prop) : Prop where
  refl (s : State) : S s s
  trans {s t u : State} : S s t → S t u → S s u
  declare {s t : State} {name : String} {value : Value} : s.declare name value = .ok t → S s t
  assign {s t : State} {name : String} {value : Value} : s.assign name value = .ok t → S s t
  define {s t : State} {name : String} {declaration : Declaration} :
    s.define name declaration = .ok t → S s t
  clock (s : State) (clock : Clock) : S s { s with clock }
  frame {s t : State} {bindings : List (String × Value)} :
    S (s.openFrame bindings) t → S s t.closeFrame
  call {s t : State} {bindings : List (String × Value)} :
    S (s.openCall bindings) t → S s t.closeCall

inductive Request where
  | evaluate (limits : Limits) (node : Node)
  | execute (limits : Limits) (node : Node)
  | report (limits : Limits) (node : Node)

namespace Request

def run : Request → Machine → Machine
  | evaluate limits node, m => (Reckoner.evaluate limits node).final m
  | execute limits node, m => (Reckoner.execute limits node).final m
  | report limits node, m => (executeReporting limits node).final m

def runAll : List Request → Machine → Machine
  | [], m => m
  | request :: rest, m => runAll rest (request.run m)

theorem state_report (limits : Limits) (node : Node) (m : Machine) :
    ((report limits node).run m).state = ((execute limits node).run m).state := by
  simp only [run, Eval.final, executeReporting]
  cases Reckoner.execute limits node m with
  | ok value n => rfl
  | error stop n => cases stop <;> rfl

end Request

namespace State.Effect

variable {S : State → State → Prop} (h : State.Effect S)

include h

theorem onMachines : Eval.Effect fun m n => S m.state n.state where
  refl m := h.refl m.state
  trans := h.trans
  declare name value m := by
    rw [Eval.final_declare]
    split
    · next changed => exact h.declare changed
    · exact h.refl _
  assign name value m := by
    rw [Eval.final_update]
    split
    · next changed => exact h.assign changed
    · exact h.refl _
  define name declaration m := by
    rw [Eval.final_define]
    split
    · next changed => exact h.define changed
    · exact h.refl _
  print _ m := h.refl m.state
  clock f m := h.clock m.state (f m.state.clock)
  frame _ inside := h.frame inside
  call _ _ inside := h.call inside

theorem evaluate (limits : Limits) (node : Node) (m : Machine) :
    S m.state ((evaluate limits node).final m).state :=
  h.onMachines.evalNode limits.passes limits.nesting node m

theorem execute (limits : Limits) (node : Node) (m : Machine) :
    S m.state ((execute limits node).final m).state := by
  have noted : ∀ record, Eval.Keeps (fun m n => S m.state n.state) (Eval.note record) :=
    fun _ m => h.refl m.state
  have all : Eval.Keeps (fun m n => S m.state n.state) (Reckoner.execute limits node) := by
    refine h.onMachines.bind (h.onMachines.clock _) fun _ => ?_
    refine h.onMachines.bind (noted _) fun _ => ?_
    refine h.onMachines.bind (h.evaluate limits node) fun _ => ?_
    exact h.onMachines.bind (noted _) fun _ m => h.refl m.state
  exact all m

theorem request (request : Request) (m : Machine) : S m.state (request.run m).state := by
  cases request with
  | evaluate limits node => exact h.evaluate limits node m
  | execute limits node => exact h.execute limits node m
  | report limits node =>
    rw [Request.state_report]
    exact h.execute limits node m

theorem requests (requests : List Request) (m : Machine) :
    S m.state (Request.runAll requests m).state := by
  induction requests generalizing m with
  | nil => exact h.refl m.state
  | cons request rest ih => exact h.trans (h.request request m) (ih _)

end State.Effect

end Reckoner
